import Sayiir.Core.Hash32
import Sayiir.Core.Snapshot

/-!
# The snapshot envelope

The durable wire format of `sayiir-core/src/snapshot_format.rs`: four bytes of
magic, the format version, the codec that wrote the payload, and the payload. The
codecs themselves are parameters. The Postgres backend encodes snapshots without
the task outputs, which it keeps in a table of their own.
-/

namespace Sayiir

/-- `SNAPSHOT_MAGIC`: `SYRS`. -/
def snapshotMagic : Bytes := [0x53, 0x59, 0x52, 0x53]

/-- `SNAPSHOT_FORMAT_VERSION`. -/
def snapshotFormatVersion : UInt8 := 1

/-- `HEADER_LEN`. -/
def headerLen : Nat := snapshotMagic.length + 2

/-- `CodecId`. -/
inductive CodecId where
  | json
  | rkyv
  deriving DecidableEq, Repr

/-- `CodecId::as_u8`. -/
def CodecId.asU8 : CodecId → UInt8
  | .json => 1
  | .rkyv => 2

/-- `CodecId::name`. -/
def CodecId.name : CodecId → String
  | .json => "json"
  | .rkyv => "rkyv"

/-- `FormatError`. -/
inductive FormatError where
  | missingMagic
  | truncated
  | unsupportedVersion (version : UInt8)
  | unknownCodec (byte : UInt8)
  | codecMismatch (expected found : CodecId)
  deriving DecidableEq, Repr

/-- `impl Display for FormatError`. -/
def FormatError.display : FormatError → String
  | .missingMagic =>
    "not a Sayiir 1.0+ snapshot (missing magic header). This looks like a pre-1.0 snapshot, " ++
      "which the 1.0 wire format does not read: drain in-flight workflows on the old version " ++
      "before upgrading."
  | .truncated =>
    "snapshot blob is truncated (shorter than the " ++ toString headerLen ++ "-byte header)"
  | .unsupportedVersion version =>
    "unsupported snapshot format version " ++ toString version.toNat ++
      " (this build understands version " ++ toString snapshotFormatVersion.toNat ++
      "); upgrade Sayiir to read it"
  | .unknownCodec byte => "unknown snapshot codec id: " ++ toString byte.toNat
  | .codecMismatch expected found =>
    "snapshot codec mismatch: blob was written with `" ++ found.name ++
      "` but this backend is configured with `" ++ expected.name ++
      "`. Configure the matching codec, or drain and re-run these workflows under the new codec."

/-- `CodecId::from_u8`. -/
def CodecId.fromU8 (byte : UInt8) : Except FormatError CodecId :=
  if byte = 1 then .ok .json
  else if byte = 2 then .ok .rkyv
  else .error (.unknownCodec byte)

/-- `SnapshotFrame`. -/
structure SnapshotFrame where
  formatVersion : UInt8
  codecId : CodecId
  payload : Bytes
  deriving DecidableEq, Repr

/-- `frame_snapshot`. -/
def frameSnapshot (codecId : CodecId) (payload : Bytes) : Bytes :=
  snapshotMagic ++ snapshotFormatVersion :: codecId.asU8 :: payload

/-- `unframe_snapshot`. -/
def unframeSnapshot (bytes : Bytes) : Except FormatError SnapshotFrame :=
  if snapshotMagic.isPrefixOf bytes then
    match bytes.drop snapshotMagic.length with
    | [] => .error .truncated
    | formatVersion :: afterVersion =>
      if formatVersion ≠ snapshotFormatVersion then .error (.unsupportedVersion formatVersion)
      else match afterVersion with
        | [] => .error .truncated
        | codecByte :: payload => do
          let codecId ← CodecId.fromU8 codecByte
          return { formatVersion, codecId, payload }
  else .error .missingMagic

/-- `unframe_snapshot_checked`. -/
def unframeSnapshotChecked (bytes : Bytes) (expected : CodecId) :
    Except FormatError SnapshotFrame := do
  let frame ← unframeSnapshot bytes
  if frame.codecId ≠ expected then throw (.codecMismatch expected frame.codecId)
  return frame

/-- A snapshot codec: `Encoder`, `Decoder` and `CodecIdentity` for `WorkflowSnapshot`. -/
structure SnapshotCodec where
  codecId : CodecId
  encode : WorkflowSnapshot → Except BoxError Bytes
  decode : Bytes → Except BoxError WorkflowSnapshot

/-- `encode_framed`. -/
def encodeFramed (codec : SnapshotCodec) (snapshot : WorkflowSnapshot) : Except BoxError Bytes := do
  let payload ← codec.encode snapshot
  return frameSnapshot codec.codecId payload

/-- `decode_framed`. A format error is boxed with its text. -/
def decodeFramed (codec : SnapshotCodec) (data : Bytes) : Except BoxError WorkflowSnapshot := do
  let frame ← (unframeSnapshotChecked data codec.codecId).mapError fun e => .other e.display
  codec.decode frame.payload

/-! ## Blobs without task outputs -/

namespace WorkflowSnapshot

/-- `take_task_outputs`: the outputs that are not empty, under the task ids that the entries
carry, and the snapshot they leave. -/
def takeTaskOutputs (s : WorkflowSnapshot) : List (TaskId × Bytes) × WorkflowSnapshot :=
  (s.getAllTaskResults.elim [] fun completed => completed.entries.filterMap fun e =>
      if e.2.output.isEmpty then none else some (e.2.taskId, e.2.output),
    s.stripTaskOutputs)

/-- `hydrate_task_outputs`, output after output. -/
def hydrateFrom (outputs : List (TaskId × Bytes)) (s : WorkflowSnapshot) : WorkflowSnapshot :=
  outputs.foldl (fun s (taskId, output) =>
    s.hydrateTaskOutputs fun t => if t = taskId then some output else none) s

end WorkflowSnapshot

/-- `encode_blob_preserving`: the blob with its hash, and the snapshot it leaves. -/
def encodeBlobPreserving (codec : SnapshotCodec) (snapshotHash : Bytes → Hash32)
    (snapshot : WorkflowSnapshot) : Except BoxError (Bytes × Hash32) × WorkflowSnapshot :=
  let (outputs, stripped) := snapshot.takeTaskOutputs
  let encoded := encodeFramed codec stripped
  (encoded.map fun data => (data, snapshotHash data), stripped.hydrateFrom outputs)

end Sayiir
