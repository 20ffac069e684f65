import Mathlib.Data.List.Forall2

/-!
# Digests and their hexadecimal form

`Hash32` of `sayiir-core/src/hash32.rs`: 32 bytes, written as 64 lower case
hexadecimal digits and read back from digits of either case. The reader works on
the UTF-8 bytes of the string, two at a time.
-/

namespace Sayiir

/-- `str::as_bytes`: the UTF-8 encoding. -/
def asBytes (s : String) : List UInt8 := s.toUTF8.data.toList

/-- `Hash32ParseError`. -/
inductive Hash32ParseError where
  | wrongLength (len : Nat)
  | invalidChar (c : UInt8)
  deriving DecidableEq, Repr

/-- The format `{:02x}` of a byte. -/
def hexByte (byte : UInt8) : List Char :=
  [Nat.digitChar (byte.toNat / 16), Nat.digitChar (byte.toNat % 16)]

/-- `decode_nibble`. -/
def decodeNibble (c : UInt8) : Except Hash32ParseError UInt8 :=
  if 0x30 ≤ c ∧ c ≤ 0x39 then .ok (c - 0x30)
  else if 0x61 ≤ c ∧ c ≤ 0x66 then .ok (c - 0x61 + 10)
  else if 0x41 ≤ c ∧ c ≤ 0x46 then .ok (c - 0x41 + 10)
  else .error (.invalidChar c)

/-- One round of the loop of `from_hex`: the `i`-th byte, from the digits at `2 * i` and
`2 * i + 1`. -/
def decodeByte (bytesIn : List UInt8) (i : Nat) : Except Hash32ParseError UInt8 := do
  let lo := bytesIn[i * 2]?.getD 0
  let hi := bytesIn[i * 2 + 1]?.getD 0
  return ((← decodeNibble lo) <<< 4) ||| (← decodeNibble hi)

/-- A loop that may fail gives one result for each element, or fails. -/
theorem mapM_ok_iff {α β ε : Type} {f : α → Except ε β} {xs : List α} {ys : List β} :
    xs.mapM f = .ok ys ↔ List.Forall₂ (fun x y => f x = .ok y) xs ys := by
  induction xs generalizing ys with
  | nil => cases ys <;> simp [pure, Except.pure]
  | cons x xs ih =>
    rw [List.mapM_cons]
    cases hx : f x with
    | error e => cases ys <;> simp [bind, Except.bind, hx]
    | ok y =>
      cases hxs : xs.mapM f with
      | error e => cases ys <;> simp [bind, Except.bind, ← ih, hxs, hx]
      | ok zs => cases ys <;> simp [bind, Except.bind, pure, Except.pure, ← ih, hxs, hx]

/-- `Hash32`. -/
structure Hash32 where
  bytes : List UInt8
  length_bytes : bytes.length = 32
  deriving DecidableEq

namespace Hash32

/-- `Hash32::to_hex`. -/
def toHex (hash : Hash32) : String := String.ofList (hash.bytes.flatMap hexByte)

/-- `Hash32::from_hex`. -/
def fromHex (s : String) : Except Hash32ParseError Hash32 :=
  let bytesIn := asBytes s
  if bytesIn.length ≠ 64 then .error (.wrongLength bytesIn.length)
  else match h : (List.range 32).mapM (decodeByte bytesIn) with
    | .error e => .error e
    | .ok bytes => .ok ⟨bytes, by simpa using (mapM_ok_iff.mp h).length_eq.symm⟩

end Hash32

end Sayiir
