import Mathlib.Data.List.Basic

/-!
# Keys, byte streams and blob records

The vocabulary of `types.rs`. A Rust `str` is the list of its Unicode scalar
values: comparing two such lists lexicographically is the byte order in which
Rust compares the strings, and no operation below cuts inside a character.

An `AsyncRead` is represented by what reading it yields: its bytes, an error that
may stand where the end of the stream should be, and how much each successive
read delivers. A read never returns an empty chunk before the end.
-/

namespace BlobStorage

abbrev Key := List Char

instance : LawfulBEq Key := inferInstanceAs (LawfulBEq (List Char))

abbrev Bytes := List UInt8

/-- Nanoseconds since the Unix epoch, the default of `DateTime<Utc>`. -/
abbrev DateTime := Int

/-- `KEY_SEPARATOR`, on every backend and platform. -/
def keySeparator : Char := '/'

/-- The `std::io::ErrorKind` values that the code or the filesystem distinguishes. -/
inductive IoErrorKind where
  | notFound
  | permissionDenied
  | alreadyExists
  | notADirectory
  | isADirectory
  | invalidFilename
  | invalidInput
  | other
  deriving DecidableEq, Repr

structure IoError where
  kind : IoErrorKind
  message : String
  deriving DecidableEq, Repr

/-- A byte stream. The `i`-th read delivers at most `cuts[i] + 1` bytes, and
whatever room there is once `cuts` is used up. -/
structure Reader where
  bytes : Bytes
  failure : Option IoError := none
  cuts : List Nat := []
  deriving DecidableEq, Repr

namespace Reader

/-- A `Cursor` or byte slice: everything at once, and no failure. -/
def ofBytes (bytes : Bytes) : Reader := { bytes }

@[simp] theorem ofBytes_bytes (b : Bytes) : (ofBytes b).bytes = b := rfl
@[simp] theorem ofBytes_failure (b : Bytes) : (ofBytes b).failure = none := rfl

/-- `tokio::io::copy` into a vector, or `read_to_end`. -/
def readToEnd (r : Reader) : Except IoError Bytes :=
  match r.failure with
  | none => .ok r.bytes
  | some e => .error e

@[simp] theorem readToEnd_ofBytes (b : Bytes) : (ofBytes b).readToEnd = .ok b := rfl

theorem readToEnd_eq_ok_iff {r : Reader} {b : Bytes} :
    r.readToEnd = .ok b ↔ r.failure = none ∧ r.bytes = b := by
  unfold readToEnd
  cases r.failure <;> simp

/-- One `read_buf` into `room > 0` spare bytes. An empty result is end of stream. -/
def readBuf (r : Reader) (room : Nat) : Except IoError (Bytes × Reader) :=
  if r.bytes = [] then
    match r.failure with
    | none => .ok ([], r)
    | some e => .error e
  else
    let n := match r.cuts with
      | [] => room
      | cut :: _ => min room (cut + 1)
    .ok (r.bytes.take n, { r with bytes := r.bytes.drop n, cuts := r.cuts.tail })

/-- `lookahead.chain(reader)` for a lookahead that is already in memory. -/
def chain (lookahead : Bytes) (r : Reader) : Reader :=
  { r with bytes := lookahead ++ r.bytes, cuts := lookahead.length.pred :: r.cuts }

/-- `reader.take(limit).read_to_end(..)`: up to `limit` bytes, and what is left of
the stream. The stream's own end is only met when it lies within the limit. -/
def readPart (r : Reader) (limit : Nat) : Except IoError (Bytes × Reader) :=
  if limit ≤ r.bytes.length then
    .ok (r.bytes.take limit, { r with bytes := r.bytes.drop limit, cuts := [] })
  else
    match r.failure with
    | none => .ok (r.bytes, { r with bytes := [], cuts := [] })
    | some e => .error e

end Reader

/-- One blob to store. -/
structure BlobInput where
  key : Key
  data : Reader
  sizeHint : Option Nat
  deriving DecidableEq, Repr

namespace BlobInput

def new (key : Key) (data : Reader) : BlobInput := ⟨key, data, none⟩

def withSize (key : Key) (data : Reader) (size : Nat) : BlobInput := ⟨key, data, some size⟩

@[simp] theorem withSize_key (k : Key) (d : Reader) (n : Nat) : (withSize k d n).key = k := rfl
@[simp] theorem withSize_data (k : Key) (d : Reader) (n : Nat) : (withSize k d n).data = d := rfl

end BlobInput

/-- Best-effort metadata of a stored blob. -/
structure BlobMeta where
  key : Key
  storedSize : Nat
  modifiedAt : DateTime
  etag : Option String
  deriving DecidableEq, Repr

/-- `BlobMeta::for_key`: the placeholder for a blob without metadata, stamped with
the current time. -/
def BlobMeta.forKey (key : Key) (now : DateTime) : BlobMeta :=
  { key, storedSize := 0, modifiedAt := now, etag := none }

structure PutResult where
  blobs : List BlobMeta
  deriving DecidableEq, Repr

structure CleanupResult where
  deletedCount : Nat
  deriving DecidableEq, Repr

structure RekeyResult where
  rekeyedCount : Nat
  deriving DecidableEq, Repr

end BlobStorage
