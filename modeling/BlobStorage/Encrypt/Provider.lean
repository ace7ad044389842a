import BlobStorage.Store

/-!
# Encryption providers

The trait of the encryption crate, as the encrypted layer sees it. A call to
`encrypt_stream` or `decrypt_stream` runs in a spawned task that writes into a
bounded pipe; what the other end of the pipe can observe of it is what it wrote and
how it ended.
-/

namespace BlobStorage

/-- How the encryption task ended, or that it did not end in time. -/
inductive EncryptOutcome where
  | header (bytes : Bytes)
  | failed (e : EncryptionError)
  | panicked
  | timedOut
  deriving DecidableEq, Repr

/-- A run of `encrypt_stream`. The pipe closes cleanly however the task ends, so a
reader of `written` cannot tell a failed run from a complete one. -/
structure EncryptRun where
  written : Bytes
  cuts : List Nat := []
  outcome : EncryptOutcome
  deriving DecidableEq, Repr

/-- The receiving end of the pipe. -/
def EncryptRun.reader (run : EncryptRun) : Reader :=
  { bytes := run.written, failure := none, cuts := run.cuts }

@[simp] theorem EncryptRun.reader_bytes (run : EncryptRun) : run.reader.bytes = run.written := rfl
@[simp] theorem EncryptRun.reader_failure (run : EncryptRun) : run.reader.failure = none := rfl

/-- `encryption_result`: the header, or the error of the layer that stands for each
way of not producing one. -/
def EncryptRun.result (run : EncryptRun) (key : Key) : Except BlobStorageError Bytes :=
  match run.outcome with
  | .header bytes => .ok bytes
  | .failed e => .error (.encryption
      s!"encryption failed for key '{String.ofList key}'" (some (.encryption e)))
  | .panicked => .error (.encryption
      s!"encryption task failed for key '{String.ofList key}'" (some .join))
  | .timedOut => .error (.encryption
      s!"timed out waiting for encryption header for key '{String.ofList key}'" (some .elapsed))

theorem EncryptRun.result_eq_ok_iff {run : EncryptRun} {key : Key} {bytes : Bytes} :
    run.result key = .ok bytes ↔ run.outcome = .header bytes := by
  unfold EncryptRun.result
  cases run.outcome <;> simp

theorem EncryptRun.result_error {run : EncryptRun} {key : Key} {e : BlobStorageError}
    (h : run.result key = .error e) : ∃ message source, e = .encryption message source := by
  unfold EncryptRun.result at h
  cases ho : run.outcome with
  | header _ => simp [ho] at h
  | failed _ =>
      simp only [ho] at h
      cases h
      exact ⟨_, _, rfl⟩
  | panicked =>
      simp only [ho] at h
      cases h
      exact ⟨_, _, rfl⟩
  | timedOut =>
      simp only [ho] at h
      cases h
      exact ⟨_, _, rfl⟩

/-- How the decryption task ended. -/
inductive DecryptOutcome where
  | done
  | failed (e : EncryptionError)
  | panicked
  deriving DecidableEq, Repr

/-- A run of `decrypt_stream`. -/
structure DecryptRun where
  written : Bytes
  outcome : DecryptOutcome
  deriving DecidableEq, Repr

/-- What reading an `ErrorAwareReader` to its end yields once the decryption task
has ended: its output, then the error the task recorded if it returned one. The
races between the task and the reader are the subject of `Encrypt.Pipe`. -/
def DecryptRun.reader (run : DecryptRun) (key : Key) : Reader where
  bytes := run.written
  failure :=
    match run.outcome with
    | .failed _ => some
        { kind := .other
          message :=
            s!"encryption error: decryption failed for key '{String.ofList key}'" }
    | _ => none

/-- The run returned `Ok` with this plaintext. -/
def DecryptRun.Yields (run : DecryptRun) (plaintext : Bytes) : Prop :=
  run.outcome = .done ∧ run.written = plaintext

instance (run : DecryptRun) (plaintext : Bytes) : Decidable (run.Yields plaintext) := by
  unfold DecryptRun.Yields
  infer_instance

/-- The trait `EncryptionProvider`. -/
structure EncryptionProvider (m : Type → Type) where
  encryptStream : Reader → m EncryptRun
  decryptStream : Reader → Bytes → m DecryptRun
  rekeyHeader : Bytes → m (Except EncryptionError (Option Bytes))

end BlobStorage
