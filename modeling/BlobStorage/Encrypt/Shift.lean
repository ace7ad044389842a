import BlobStorage.Encrypt.Provider

/-!
# The byte-shift provider

`RekeyableShiftEncryption`, the provider the repository tests with: data is shifted
by a data key, and the header is that key wrapped by a master key. It is the concrete
provider at which results about arbitrary providers are applied; with the master key
`0` it is `ShiftEncryption`.
-/

namespace BlobStorage

structure RekeyableShiftEncryption where
  shift : UInt8
  masterKeyId : UInt8
  deriving DecidableEq, Repr

namespace RekeyableShiftEncryption

/-- The data key that a header wraps. -/
def dek (headerBytes : Bytes) : UInt8 := headerBytes.getD 0 0 ^^^ headerBytes.getD 1 0

/-- The header that wraps a data key. -/
def wrapDek (masterKeyId key : UInt8) : Bytes := [key ^^^ masterKeyId, masterKeyId]

def encryptStream (self : RekeyableShiftEncryption) (input : Reader) : EncryptRun :=
  match input.readToEnd with
  | .error e => { written := [], outcome := .failed (.io e) }
  | .ok buf =>
      { written := buf.map (· + self.shift)
        outcome := .header (wrapDek self.masterKeyId self.shift) }

def decryptStream (input : Reader) (headerBytes : Bytes) : DecryptRun :=
  match input.readToEnd with
  | .error e => { written := [], outcome := .failed (.io e) }
  | .ok buf => { written := buf.map (· - dek headerBytes), outcome := .done }

def rekeyHeader (self : RekeyableShiftEncryption) (headerBytes : Bytes) : Option Bytes :=
  if headerBytes.getD 1 0 = self.masterKeyId then none
  else some (wrapDek self.masterKeyId (dek headerBytes))

def toProvider {m : Type → Type} [Monad m] (self : RekeyableShiftEncryption) :
    EncryptionProvider m where
  encryptStream input := pure (self.encryptStream input)
  decryptStream input headerBytes := pure (decryptStream input headerBytes)
  rekeyHeader headerBytes := pure (.ok (self.rekeyHeader headerBytes))

@[simp] theorem dek_wrapDek (masterKeyId key : UInt8) : dek (wrapDek masterKeyId key) = key := by
  change key ^^^ masterKeyId ^^^ masterKeyId = key
  rw [UInt8.xor_assoc, UInt8.xor_self, UInt8.xor_zero]

/-- Re-wrapping a header keeps its data key. -/
theorem dek_rekeyHeader {self : RekeyableShiftEncryption} {headerBytes newHeader : Bytes}
    (h : self.rekeyHeader headerBytes = some newHeader) : dek newHeader = dek headerBytes := by
  unfold rekeyHeader at h
  split at h
  · cases h
  · cases h
    exact dek_wrapDek self.masterKeyId (dek headerBytes)

theorem decryptStream_yields {self : RekeyableShiftEncryption} {input encData : Reader}
    {headerBytes : Bytes} (hheader : (self.encryptStream input).outcome = .header headerBytes)
    (hfailure : encData.failure = none)
    (hbytes : encData.bytes = (self.encryptStream input).written) :
    (decryptStream encData headerBytes).Yields input.bytes := by
  have hread : encData.readToEnd = .ok encData.bytes :=
    Reader.readToEnd_eq_ok_iff.mpr ⟨hfailure, rfl⟩
  unfold decryptStream
  rw [hread]
  refine ⟨rfl, ?_⟩
  rw [hbytes]
  unfold encryptStream at hheader ⊢
  cases hinput : input.readToEnd with
  | error e =>
      rw [hinput] at hheader
      cases hheader
  | ok buf =>
      rw [hinput] at hheader
      cases hheader
      obtain ⟨_, rfl⟩ := Reader.readToEnd_eq_ok_iff.mp hinput
      simp only [List.map_map, dek_wrapDek, Function.comp_def, UInt8.add_sub_cancel, List.map_id']

end RekeyableShiftEncryption

end BlobStorage
