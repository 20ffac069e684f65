import Sayiir.Core.Error
import Sayiir.Core.Hash32
import Sayiir.Format.Json

/-!
# Envelopes

The formats in which the runtime wraps values between nodes
(`sayiir-core/src/codec.rs`, `loop_runner.rs`). What a concrete codec writes is
a parameter; the binary loop envelope is fixed by the runtime itself. The JSON
envelopes of the language bindings are read through `serde_json`, which is a
parameter too.
-/

namespace Sayiir

/-- `LoopDecision`. -/
inductive LoopDecision where
  | again
  | done
  deriving DecidableEq, Repr

/-- `EnvelopeCodec`, and next to it the JSON reader that loop envelopes from the
language bindings go through. -/
structure EnvelopeCodec where
  decodeString : Bytes → Except BoxError String
  encodeBranchEnvelope : String → Bytes → Except BoxError Bytes
  encodeNamedResults : List (String × Bytes) → Except BoxError Bytes
  decodeLoopJson : Bytes → Except BoxError (LoopDecision × Bytes)

/-- A codec to evaluate the model with: strings are their bytes, an envelope is its
content, named results are put one after the other, and there is no JSON. -/
def EnvelopeCodec.plain : EnvelopeCodec where
  decodeString bytes := .ok (String.ofList (bytes.map fun b => Char.ofNat b.toNat))
  encodeBranchEnvelope _ output := .ok output
  encodeNamedResults results := .ok (results.flatMap Prod.snd)
  decodeLoopJson _ := .error (.other "not JSON")

/-- The binary loop envelope: a tag byte and the inner value. -/
def encodeLoopEnvelope (decision : LoopDecision) (inner : Bytes) : Bytes :=
  match decision with
  | .again => 0 :: inner
  | .done => 1 :: inner

/-- Read a loop envelope. The first byte tells the binary format from JSON. -/
def decodeLoopEnvelope (codec : EnvelopeCodec) (bytes : Bytes) :
    Except BoxError (LoopDecision × Bytes) :=
  match bytes with
  | [] => .error (.other "empty loop envelope")
  | first :: inner =>
    if first = 0 then .ok (.again, inner)
    else if first = 1 then .ok (.done, inner)
    else codec.decodeLoopJson bytes

/-- `sayiir_core::codec::decode_loop_envelope`, which knows the binary format only. -/
def decodeBinaryLoopEnvelope (bytes : Bytes) : Except BoxError (LoopDecision × Bytes) :=
  match bytes with
  | [] => .error (.other "empty loop envelope")
  | tag :: inner =>
    if tag = 0 then .ok (.again, inner)
    else if tag = 1 then .ok (.done, inner)
    else .error (.other ("invalid loop envelope tag: 0x" ++ String.ofList (hexByte tag)))

/-- The snake case name of a decision. -/
def LoopDecision.asRef : LoopDecision → String
  | .again => "again"
  | .done => "done"

/-- `impl FromStr for LoopDecision`. -/
def LoopDecision.parse (tag : String) : Option LoopDecision :=
  if tag = "again" then some .again else if tag = "done" then some .done else none

/-- The two functions of `serde_json` that the runtime calls. -/
structure SerdeJson (ν : Type) where
  fromSlice : Bytes → Except BoxError (Json.Value ν)
  toVec : Json.Value ν → Except BoxError Bytes

variable {ν : Type}

/-- The JSON arm of the runtime's `decode_loop_envelope`. -/
def SerdeJson.decodeLoopJson (json : SerdeJson ν) (bytes : Bytes) :
    Except BoxError (LoopDecision × Bytes) := do
  let v ← json.fromSlice bytes
  match (v.get "_loop").bind Json.Value.asStr with
  | none => throw (.other "missing or invalid '_loop' tag in LoopResult JSON")
  | some tag =>
    match LoopDecision.parse tag with
    | none => throw (.other ("unknown loop decision tag: '" ++ tag ++ "'"))
    | some decision =>
      match v.get "value" with
      | none => throw (.other "missing 'value' field in LoopResult JSON")
      | some inner => return (decision, ← json.toVec inner)

/-- The runtime reads JSON envelopes with `serde_json`. -/
def EnvelopeCodec.withJson (codec : EnvelopeCodec) (json : SerdeJson ν) : EnvelopeCodec :=
  { codec with decodeLoopJson := json.decodeLoopJson }

end Sayiir
