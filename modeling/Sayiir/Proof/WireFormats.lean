import Sayiir.Core.Codec
import Sayiir.Core.SnapshotFormat

/-!
# Wire formats

Bytes that leave the process come back as what they were: digests in hexadecimal,
snapshots in their envelope, snapshots whose task outputs are stored elsewhere, and
the envelopes in which loop bodies answer.

The first two formats are read byte by byte and are characterised by what is
accepted. Of a blob that is shorter than its header the documentation asks more
than the reader gives (`snapshot_envelope_iff`). Outputs are moved out of a
snapshot and back through an unordered list without the empty ones; the restored
snapshot is the same because an output that is not in the list is empty
(`hydrateFrom_strip`). The two formats of a loop envelope are told apart by one
byte, which is enough because no JSON text begins with a tag (`first_byte`).
-/

namespace Sayiir

/-! ## Bytes of a string -/

theorem asBytes_injective {s t : String} (h : asBytes s = asBytes t) : s = t := by
  have hdata : s.toUTF8.data = t.toUTF8.data := Array.toList_inj.mp h
  exact String.toByteArray_inj.mp (ByteArray.ext hdata)

theorem asBytes_ofList (cs : List Char) :
    asBytes (String.ofList cs) = cs.flatMap String.utf8EncodeChar := by
  simp [asBytes, List.utf8Encode]

theorem asBytes_eq (s : String) : asBytes s = s.toList.flatMap String.utf8EncodeChar := by
  rw [← asBytes_ofList, String.ofList_toList]

theorem utf8EncodeChar_ascii {c : Char} (h : c.toNat < 128) :
    String.utf8EncodeChar c = [UInt8.ofNat c.toNat] := by
  rw [String.utf8EncodeChar]
  exact if_pos (Nat.le_of_lt_succ h)

/-- Every byte of a character outside ASCII has its top bit set. -/
theorem high_of_mem_utf8EncodeChar {c : Char} (h : ¬ c.toNat < 128) :
    ∀ b ∈ String.utf8EncodeChar c, 128 ≤ b.toNat := by
  have hv : ¬ c.val.toNat ≤ 127 := fun hle => h (Nat.lt_succ_of_le hle)
  intro b hb
  simp only [String.utf8EncodeChar, if_neg hv] at hb
  split at hb <;> [skip; split at hb] <;>
    simp only [List.mem_cons, List.not_mem_nil, or_false] at hb
  · rcases hb with rfl | rfl <;> simp <;> omega
  · rcases hb with rfl | rfl | rfl <;> simp <;> omega
  · rcases hb with rfl | rfl | rfl | rfl <;> simp <;> omega

/-- A string of bytes below `128` is a string of ASCII characters, one per byte. -/
theorem ascii_iff (cs : List Char) :
    (∀ b ∈ cs.flatMap String.utf8EncodeChar, b.toNat < 128) ↔ ∀ c ∈ cs, c.toNat < 128 := by
  constructor
  · intro h c hc
    by_contra hhigh
    obtain ⟨b, hb⟩ : ∃ b, b ∈ String.utf8EncodeChar c :=
      List.exists_mem_of_ne_nil _ (String.utf8EncodeChar_ne_nil)
    have hlow := h b (List.mem_flatMap.mpr ⟨c, hc, hb⟩)
    have hge := high_of_mem_utf8EncodeChar hhigh b hb
    omega
  · intro h b hb
    obtain ⟨c, hc, hb⟩ := List.mem_flatMap.mp hb
    rw [utf8EncodeChar_ascii (h c hc), List.mem_singleton] at hb
    have hc' := h c hc
    rw [hb, UInt8.toNat_ofNat']
    omega

theorem flatMap_utf8EncodeChar {cs : List Char} (h : ∀ c ∈ cs, c.toNat < 128) :
    cs.flatMap String.utf8EncodeChar = cs.map fun c => UInt8.ofNat c.toNat := by
  induction cs with
  | nil => rfl
  | cons c cs ih =>
    rw [List.flatMap_cons, utf8EncodeChar_ascii (h c (List.mem_cons_self ..)),
      ih fun x hx => h x (List.mem_cons_of_mem _ hx)]
    rfl

/-! ## Two digits for each byte -/

theorem getElem?_flatMap_pair {α β : Type} (f g : α → β) : ∀ (xs : List α) (i : Nat),
    (xs.flatMap fun a => [f a, g a])[i * 2]? = xs[i]?.map f ∧
      (xs.flatMap fun a => [f a, g a])[i * 2 + 1]? = xs[i]?.map g := by
  intro xs
  induction xs with
  | nil => intro i; exact ⟨rfl, rfl⟩
  | cons x xs ih =>
    intro i
    cases i with
    | zero => exact ⟨rfl, rfl⟩
    | succ i => simpa [Nat.add_mul] using ih i

/-- What `decode_nibble` accepts is a hexadecimal digit, and its value is that of the digit in
lower case. -/
theorem decodeNibble_table : ∀ n < 256,
    (decodeNibble (UInt8.ofNat n)).toOption.all (fun v =>
      n < 128 && (Char.ofNat n).isHexDigit && v.toNat < 16 &&
        Nat.digitChar v.toNat == (Char.ofNat n).toLower) = true := by
  decide +kernel

theorem decodeNibble_of_isHexDigit : ∀ n < 128, (Char.ofNat n).isHexDigit = true →
    (decodeNibble (UInt8.ofNat n)).isOk = true := by
  decide

theorem decodeNibble_digitChar : ∀ n < 16,
    (Nat.digitChar n).toNat < 128 ∧
      decodeNibble (UInt8.ofNat (Nat.digitChar n).toNat) = .ok (UInt8.ofNat n) := by
  decide

theorem digitChar_lower : ∀ n < 16,
    (Nat.digitChar n).isDigit ∨ 'a' ≤ Nat.digitChar n ∧ Nat.digitChar n ≤ 'f' := by
  decide

theorem nibbles_toNat : ∀ a < 16, ∀ b < 16,
    ((UInt8.ofNat a <<< 4) ||| UInt8.ofNat b).toNat = a * 16 + b := by
  decide

theorem decodeNibble_ok {c v : UInt8} (h : decodeNibble c = .ok v) :
    c.toNat < 128 ∧ (Char.ofNat c.toNat).isHexDigit = true ∧ v.toNat < 16 ∧
      Nat.digitChar v.toNat = (Char.ofNat c.toNat).toLower := by
  have ht := decodeNibble_table c.toNat c.toNat_lt
  rw [UInt8.ofNat_toNat, h] at ht
  simpa [Except.toOption, and_assoc] using ht

theorem decodeByte_ok_iff {bytesIn : List UInt8} {i : Nat} {byte : UInt8}
    (hlen : i * 2 + 1 < bytesIn.length) :
    decodeByte bytesIn i = .ok byte ↔
      ∃ a b, decodeNibble bytesIn[i * 2] = .ok a ∧ decodeNibble bytesIn[i * 2 + 1] = .ok b ∧
        byte = (a <<< 4) ||| b := by
  have hlo : bytesIn[i * 2]?.getD 0 = bytesIn[i * 2] := by
    rw [List.getElem?_eq_getElem (by omega), Option.getD_some]
  have hhi : bytesIn[i * 2 + 1]?.getD 0 = bytesIn[i * 2 + 1] := by
    rw [List.getElem?_eq_getElem hlen, Option.getD_some]
  rw [decodeByte, hlo, hhi]
  cases ha : decodeNibble bytesIn[i * 2] with
  | error e => simp [bind, Except.bind]
  | ok a =>
    cases hb : decodeNibble bytesIn[i * 2 + 1] with
    | error e => simp [bind, Except.bind]
    | ok b => simp [bind, Except.bind, pure, Except.pure, eq_comm]

namespace Hash32

/-- The loop of `from_hex` reads byte after byte. -/
theorem fromHex_ok_iff {s : String} {hash : Hash32} :
    fromHex s = .ok hash ↔ (asBytes s).length = 64 ∧
      ∀ (i : Nat) (hi : i < hash.bytes.length),
        decodeByte (asBytes s) i = .ok hash.bytes[i] := by
  have hloop : (List.range 32).mapM (decodeByte (asBytes s)) = .ok hash.bytes ↔
      ∀ (i : Nat) (hi : i < hash.bytes.length),
        decodeByte (asBytes s) i = .ok hash.bytes[i] := by
    rw [mapM_ok_iff, List.forall₂_iff_get]
    simp [hash.length_bytes]
  rw [← hloop, fromHex]
  by_cases hlen : (asBytes s).length = 64
  · simp only [hlen, ne_eq, not_true, if_false, true_and]
    split
    · next e he => simp [he]
    · next bytes hbytes =>
      constructor
      · rintro ⟨⟩
        exact hbytes
      · intro h
        have heq := hbytes.symm.trans h
        cases hash
        cases heq
        rfl
  · simp [hlen]

theorem length_toHex (hash : Hash32) : hash.toHex.toList.length = 64 := by
  simp [toHex, List.length_flatMap, hexByte, hash.length_bytes]

theorem toHex_ascii (hash : Hash32) : ∀ c ∈ hash.toHex.toList, c.toNat < 128 := by
  intro c hc
  simp only [toHex, String.toList_ofList, List.mem_flatMap, hexByte, List.mem_cons,
    List.not_mem_nil, or_false] at hc
  obtain ⟨byte, -, rfl | rfl⟩ := hc
  · exact (decodeNibble_digitChar _ (by have := byte.toNat_lt; omega)).1
  · exact (decodeNibble_digitChar _ (by omega)).1

/-- The digits at the two places of a byte. -/
theorem getElem?_toHex (hash : Hash32) {i : Nat} (hi : i < hash.bytes.length) :
    hash.toHex.toList[i * 2]? = some (Nat.digitChar (hash.bytes[i].toNat / 16)) ∧
      hash.toHex.toList[i * 2 + 1]? = some (Nat.digitChar (hash.bytes[i].toNat % 16)) := by
  obtain ⟨hlo, hhi⟩ := getElem?_flatMap_pair (fun b : UInt8 => Nat.digitChar (b.toNat / 16))
    (fun b => Nat.digitChar (b.toNat % 16)) hash.bytes i
  rw [List.getElem?_eq_getElem hi] at hlo hhi
  rw [toHex, String.toList_ofList]
  exact ⟨hlo, hhi⟩

theorem fromHex_toHex (hash : Hash32) : fromHex hash.toHex = .ok hash := by
  have hbytes : asBytes hash.toHex = hash.toHex.toList.map fun c => UInt8.ofNat c.toNat := by
    rw [asBytes_eq, flatMap_utf8EncodeChar hash.toHex_ascii]
  have hlen : (asBytes hash.toHex).length = 64 := by
    rw [hbytes, List.length_map, hash.length_toHex]
  refine fromHex_ok_iff.mpr ⟨hlen, ?_⟩
  intro i hi
  have hi' := hash.length_bytes ▸ hi
  obtain ⟨hlo, hhi⟩ := hash.getElem?_toHex hi
  have hlo' : (asBytes hash.toHex)[i * 2]? = some (UInt8.ofNat (Nat.digitChar
      (hash.bytes[i].toNat / 16)).toNat) := by rw [hbytes, List.getElem?_map, hlo]; rfl
  have hhi' : (asBytes hash.toHex)[i * 2 + 1]? = some (UInt8.ofNat (Nat.digitChar
      (hash.bytes[i].toNat % 16)).toNat) := by rw [hbytes, List.getElem?_map, hhi]; rfl
  have hbyte := hash.bytes[i].toNat_lt
  refine (decodeByte_ok_iff (by omega)).mpr
    ⟨.ofNat (hash.bytes[i].toNat / 16), .ofNat (hash.bytes[i].toNat % 16), ?_, ?_, ?_⟩
  · rw [(List.getElem_eq_iff _).mpr hlo']
    exact (decodeNibble_digitChar _ (by omega)).2
  · rw [(List.getElem_eq_iff _).mpr hhi']
    exact (decodeNibble_digitChar _ (by omega)).2
  · apply UInt8.toNat_inj.mp
    rw [nibbles_toNat _ (by omega) _ (by omega)]
    omega

theorem toNat_lt_of_isHexDigit {c : Char} (h : c.isHexDigit = true) : c.toNat < 128 := by
  simp only [Char.isHexDigit, Char.isDigit, UInt32.le_iff_toNat_le, ge_iff_le, Bool.or_eq_true,
    Bool.and_eq_true, decide_eq_true_eq, UInt32.reduceToNat, Char.reduceVal] at h
  change c.val.toNat < 128
  omega

/-- Every byte of a string that is read is a digit, and writing the result puts the same
digit back in its place. -/
theorem nibbles_of_fromHex {s : String} {hash : Hash32} (h : fromHex s = .ok hash) :
    (asBytes s).length = 64 ∧ ∀ (j : Nat) (hj : j < (asBytes s).length),
      ∃ v, decodeNibble (asBytes s)[j] = .ok v ∧
        hash.toHex.toList[j]? = some (Nat.digitChar v.toNat) := by
  obtain ⟨hlen, hread⟩ := fromHex_ok_iff.mp h
  have hbytes := hash.length_bytes
  refine ⟨hlen, ?_⟩
  intro j hj
  have hi : j / 2 < hash.bytes.length := by omega
  obtain ⟨x, y, hx, hy, hbyte⟩ := (decodeByte_ok_iff (by omega)).mp (hread (j / 2) hi)
  obtain ⟨-, -, hxlt, -⟩ := decodeNibble_ok hx
  obtain ⟨-, -, hylt, -⟩ := decodeNibble_ok hy
  obtain ⟨hlo, hhi⟩ := hash.getElem?_toHex hi
  have hnat : hash.bytes[j / 2].toNat = x.toNat * 16 + y.toNat := by
    rw [hbyte, ← nibbles_toNat _ hxlt _ hylt, UInt8.ofNat_toNat, UInt8.ofNat_toNat]
  rcases Nat.mod_two_eq_zero_or_one j with hpar | hpar
  · have hj2 : j / 2 * 2 = j := by omega
    simp only [hj2] at hx hlo
    rw [hnat, show (x.toNat * 16 + y.toNat) / 16 = x.toNat by omega] at hlo
    exact ⟨x, hx, hlo⟩
  · have hj2 : j / 2 * 2 + 1 = j := by omega
    simp only [hj2] at hy hhi
    rw [hnat, show (x.toNat * 16 + y.toNat) % 16 = y.toNat by omega] at hhi
    exact ⟨y, hy, hhi⟩

/-- The same of the characters: a string that is read has no others than ASCII ones. -/
theorem digits_of_fromHex {s : String} {hash : Hash32} (h : fromHex s = .ok hash) :
    s.toList.length = 64 ∧ ∀ (j : Nat) (hj : j < s.toList.length),
      s.toList[j].isHexDigit = true ∧ hash.toHex.toList[j]? = some s.toList[j].toLower := by
  obtain ⟨hlen, hnibble⟩ := nibbles_of_fromHex h
  have hlow : ∀ b ∈ asBytes s, b.toNat < 128 := by
    intro b hb
    obtain ⟨j, hj, rfl⟩ := List.mem_iff_getElem.mp hb
    obtain ⟨v, hv, -⟩ := hnibble j hj
    exact (decodeNibble_ok hv).1
  have hascii := (ascii_iff s.toList).mp (asBytes_eq s ▸ hlow)
  have heq := (asBytes_eq s).trans (flatMap_utf8EncodeChar hascii)
  have hchars : s.toList.length = 64 := by rw [← hlen, heq, List.length_map]
  refine ⟨hchars, ?_⟩
  intro j hj
  obtain ⟨v, hv, hdigit⟩ := hnibble j (by omega)
  have hc := hascii _ (List.getElem_mem hj)
  obtain ⟨-, hhex, -, hlower⟩ := decodeNibble_ok hv
  simp only [heq, List.getElem_map, UInt8.toNat_ofNat',
    Nat.mod_eq_of_lt (show s.toList[j].toNat < 2 ^ 8 by omega), Char.ofNat_toNat] at hhex hlower
  exact ⟨hhex, hlower ▸ hdigit⟩

/-- Sixty-four hexadecimal digits are read. -/
theorem exists_fromHex {s : String} (hlen : s.toList.length = 64)
    (hhex : ∀ c ∈ s.toList, c.isHexDigit = true) : ∃ hash, fromHex s = .ok hash := by
  have hascii : ∀ c ∈ s.toList, c.toNat < 128 := fun c hc => toNat_lt_of_isHexDigit (hhex c hc)
  have heq := (asBytes_eq s).trans (flatMap_utf8EncodeChar hascii)
  have hlen' : (asBytes s).length = 64 := by rw [heq, List.length_map, hlen]
  have hnibble : ∀ (j : Nat) (hj : j < (asBytes s).length),
      ∃ v, decodeNibble (asBytes s)[j] = .ok v := by
    intro j hj
    have hj' : j < s.toList.length := by omega
    have hok := decodeNibble_of_isHexDigit _ (hascii _ (List.getElem_mem hj'))
      (by rw [Char.ofNat_toNat]; exact hhex _ (List.getElem_mem hj'))
    simp only [heq, List.getElem_map]
    cases hd : decodeNibble (UInt8.ofNat s.toList[j].toNat) with
    | error e => rw [hd] at hok; cases hok
    | ok v => exact ⟨v, rfl⟩
  have hbyte : ∀ i : Fin 32, ∃ byte, decodeByte (asBytes s) i = .ok byte := by
    intro i
    obtain ⟨a, ha⟩ := hnibble (i * 2) (by omega)
    obtain ⟨b, hb⟩ := hnibble (i * 2 + 1) (by omega)
    exact ⟨_, (decodeByte_ok_iff (by omega)).mpr ⟨a, b, ha, hb, rfl⟩⟩
  choose byte hbyte using hbyte
  refine ⟨⟨List.ofFn byte, List.length_ofFn⟩, fromHex_ok_iff.mpr ⟨hlen', ?_⟩⟩
  intro i hi
  rw [List.length_ofFn] at hi
  rw [List.getElem_ofFn]
  exact hbyte ⟨i, hi⟩

/-- **The hexadecimal codec.** A digest is written as 64 lower case digits and read back;
a string is read exactly when it is 64 digits of either case, and writing what was read
gives the string in lower case. -/
theorem hex_codec :
    (∀ hash : Hash32, fromHex hash.toHex = .ok hash) ∧
    (∀ hash : Hash32, hash.toHex.toList.length = 64 ∧
      ∀ c ∈ hash.toHex.toList, c.isDigit ∨ 'a' ≤ c ∧ c ≤ 'f') ∧
    (∀ s : String, (∃ hash, fromHex s = .ok hash) ↔
      s.toList.length = 64 ∧ ∀ c ∈ s.toList, c.isHexDigit) ∧
    ∀ (s : String) (hash : Hash32), fromHex s = .ok hash → hash.toHex = s.toLower := by
  refine ⟨fromHex_toHex, ?_, ?_, ?_⟩
  · intro hash
    refine ⟨hash.length_toHex, ?_⟩
    intro c hc
    simp only [toHex, String.toList_ofList, List.mem_flatMap, hexByte, List.mem_cons,
      List.not_mem_nil, or_false] at hc
    obtain ⟨byte, -, rfl | rfl⟩ := hc
    · exact digitChar_lower _ (by have := byte.toNat_lt; omega)
    · exact digitChar_lower _ (by omega)
  · intro s
    constructor
    · rintro ⟨hash, h⟩
      obtain ⟨hlen, hdigits⟩ := digits_of_fromHex h
      refine ⟨hlen, ?_⟩
      intro c hc
      obtain ⟨j, hj, rfl⟩ := List.mem_iff_getElem.mp hc
      exact (hdigits j hj).1
    · rintro ⟨hlen, hhex⟩
      exact exists_fromHex hlen hhex
  · intro s hash h
    obtain ⟨hlen, hdigits⟩ := digits_of_fromHex h
    apply String.toList_inj.mp
    have hlower : s.toLower = s.map Char.toLower := rfl
    rw [hlower, String.toList_map]
    apply List.ext_getElem?
    intro j
    by_cases hj : j < s.toList.length
    · rw [(hdigits j hj).2, List.getElem?_map, List.getElem?_eq_getElem hj, Option.map_some]
    · rw [List.getElem?_eq_none (by rw [length_toHex]; omega),
        List.getElem?_eq_none (by rw [List.length_map]; omega)]

end Hash32

/-! ## The snapshot envelope -/

theorem CodecId.fromU8_asU8 (codecId : CodecId) : fromU8 codecId.asU8 = .ok codecId := by
  cases codecId <;> rfl

theorem CodecId.asU8_of_fromU8 {byte : UInt8} {codecId : CodecId}
    (h : fromU8 byte = .ok codecId) : byte = codecId.asU8 := by
  unfold fromU8 at h
  split at h
  · cases h; assumption
  · split at h
    · cases h; assumption
    · cases h

/-- The checks of an envelope, in the order in which they are documented. -/
def documentedChecks (bytes : Bytes) (expected : CodecId) : Except FormatError SnapshotFrame :=
  if ¬ snapshotMagic.isPrefixOf bytes then .error .missingMagic
  else if bytes.length < headerLen then .error .truncated
  else
    let version := bytes.getD 4 0
    if version ≠ snapshotFormatVersion then .error (.unsupportedVersion version)
    else match CodecId.fromU8 (bytes.getD 5 0) with
      | .error e => .error e
      | .ok found =>
        if found ≠ expected then .error (.codecMismatch expected found)
        else .ok ⟨version, found, bytes.drop headerLen⟩

/-- A blob is one without the magic, or the magic and what follows it. -/
theorem magic_cases (bytes : Bytes) :
    snapshotMagic.isPrefixOf bytes = false ∨ ∃ rest, bytes = snapshotMagic ++ rest := by
  cases h : snapshotMagic.isPrefixOf bytes with
  | false => exact .inl rfl
  | true =>
    obtain ⟨rest, hrest⟩ := List.isPrefixOf_iff_prefix.mp h
    exact .inr ⟨rest, hrest.symm⟩

theorem unframeSnapshot_magic (rest : Bytes) :
    unframeSnapshot (snapshotMagic ++ rest) = match rest with
      | [] => .error .truncated
      | formatVersion :: afterVersion =>
        if formatVersion ≠ snapshotFormatVersion then .error (.unsupportedVersion formatVersion)
        else match afterVersion with
          | [] => .error .truncated
          | codecByte :: payload => do
            let codecId ← CodecId.fromU8 codecByte
            return { formatVersion, codecId, payload } := rfl

theorem unframeSnapshotChecked_frame (codecId expected : CodecId) (payload : Bytes) :
    unframeSnapshotChecked (frameSnapshot codecId payload) expected
      = if codecId ≠ expected then .error (.codecMismatch expected codecId)
        else .ok ⟨snapshotFormatVersion, codecId, payload⟩ := by
  rw [unframeSnapshotChecked, frameSnapshot, unframeSnapshot_magic]
  simp only [ne_eq, not_true, if_false, CodecId.fromU8_asU8]
  by_cases h : codecId = expected <;> simp [h, bind, Except.bind, pure, Except.pure, throw,
    throwThe, MonadExceptOf.throw]

/-- **The envelope is read as it is documented**, but for one kind of blob: magic and a wrong
version and nothing more, which is cut short and reported as an unsupported version. -/
theorem unframeSnapshotChecked_eq_iff (bytes : Bytes) (expected : CodecId) :
    unframeSnapshotChecked bytes expected = documentedChecks bytes expected ↔
      ¬ ∃ version ≠ snapshotFormatVersion, bytes = snapshotMagic ++ [version] := by
  rcases magic_cases bytes with hmagic | ⟨rest, rfl⟩
  · have hno : ¬ ∃ version ≠ snapshotFormatVersion, bytes = snapshotMagic ++ [version] := by
      rintro ⟨version, -, rfl⟩
      cases hmagic
    simp [unframeSnapshotChecked, unframeSnapshot, documentedChecks, hmagic, bind, Except.bind, hno]
  · match rest with
    | [] => exact ⟨fun _ => (by rintro ⟨version, -, h⟩; cases h), fun _ => rfl⟩
    | [version] =>
      by_cases hversion : version = snapshotFormatVersion
      · subst hversion
        refine ⟨fun _ => ?_, fun _ => rfl⟩
        rintro ⟨version, hne, h⟩
        cases h
        exact hne rfl
      · have hcode : unframeSnapshotChecked (snapshotMagic ++ [version]) expected
            = .error (.unsupportedVersion version) := by
          rw [unframeSnapshotChecked, unframeSnapshot_magic]
          simp [hversion, bind, Except.bind]
        refine ⟨?_, fun h => absurd ⟨version, hversion, rfl⟩ h⟩
        intro h
        rw [hcode] at h
        cases h
    | version :: codecByte :: payload =>
      refine ⟨fun _ => (by rintro ⟨version, -, h⟩; cases h), fun _ => ?_⟩
      have hdoc : documentedChecks (snapshotMagic ++ version :: codecByte :: payload) expected
          = if version ≠ snapshotFormatVersion then .error (.unsupportedVersion version)
            else match CodecId.fromU8 codecByte with
              | .error e => .error e
              | .ok found =>
                if found ≠ expected then .error (.codecMismatch expected found)
                else .ok ⟨version, found, payload⟩ := by
        rw [documentedChecks, if_neg (by simp [snapshotMagic]),
          if_neg (by simp [headerLen, snapshotMagic])]
        rfl
      rw [hdoc, unframeSnapshotChecked, unframeSnapshot_magic]
      by_cases hversion : version = snapshotFormatVersion
      · cases hcodec : CodecId.fromU8 codecByte with
        | error e => simp [hversion, hcodec, bind, Except.bind]
        | ok found =>
          by_cases hfound : found = expected <;> simp [hversion, hcodec, hfound, bind,
            Except.bind, pure, Except.pure, throw, throwThe, MonadExceptOf.throw]
      · simp [hversion, bind, Except.bind]

/-- What is read was framed. -/
theorem unframeSnapshot_ok {bytes : Bytes} {frame : SnapshotFrame}
    (h : unframeSnapshot bytes = .ok frame) :
    frame.formatVersion = snapshotFormatVersion ∧
      bytes = frameSnapshot frame.codecId frame.payload := by
  rcases magic_cases bytes with hmagic | ⟨rest, rfl⟩
  · simp [unframeSnapshot, hmagic] at h
  · rw [unframeSnapshot_magic] at h
    split at h
    · cases h
    · split at h
      · cases h
      · next hversion =>
        split at h
        · cases h
        · next codecByte payload =>
          cases hcodec : CodecId.fromU8 codecByte with
          | error e => rw [hcodec] at h; cases h
          | ok found =>
            rw [hcodec] at h
            cases h
            rw [not_not] at hversion
            exact ⟨hversion, by rw [frameSnapshot, CodecId.asU8_of_fromU8 hcodec, hversion]⟩

/-- What is accepted is exactly what was framed for the expected codec. -/
theorem unframeSnapshotChecked_ok_iff {bytes payload : Bytes} {expected : CodecId} :
    (∃ frame, unframeSnapshotChecked bytes expected = .ok frame ∧ frame.payload = payload) ↔
      bytes = frameSnapshot expected payload := by
  constructor
  · rintro ⟨frame, h, rfl⟩
    cases hread : unframeSnapshot bytes with
    | error e => rw [unframeSnapshotChecked, hread] at h; cases h
    | ok frame' =>
      obtain ⟨-, hbytes⟩ := unframeSnapshot_ok hread
      rw [hbytes, unframeSnapshotChecked_frame] at h
      split at h
      · cases h
      · next hcodec =>
        cases h
        rw [hbytes, not_not.mp hcodec]
  · rintro rfl
    refine ⟨⟨snapshotFormatVersion, expected, payload⟩, ?_, rfl⟩
    rw [unframeSnapshotChecked_frame, if_neg (by simp)]

theorem decodeFramed_frame (codec : SnapshotCodec) (other : CodecId) (payload : Bytes) :
    decodeFramed codec (frameSnapshot other payload)
      = if other ≠ codec.codecId then
          .error (.other (FormatError.codecMismatch codec.codecId other).display)
        else codec.decode payload := by
  rw [decodeFramed, unframeSnapshotChecked_frame]
  split <;> rfl

/-- **The snapshot envelope.** The result of reading a blob is that of the documented checks
exactly when the blob is not the magic and a wrong version with nothing behind it, which is
shorter than the header and reported as an unsupported version. A blob is accepted exactly
when it was framed for the expected codec, so that what a codec wrote is read back by it and
by no other. -/
theorem snapshot_envelope_iff (bytes : Bytes) (expected : CodecId) :
    (unframeSnapshotChecked bytes expected = documentedChecks bytes expected ↔
      ¬ ∃ version ≠ snapshotFormatVersion, bytes = snapshotMagic ++ [version]) ∧
    (∀ payload,
      (∃ frame, unframeSnapshotChecked bytes expected = .ok frame ∧ frame.payload = payload) ↔
        bytes = frameSnapshot expected payload) ∧
    (∀ (codec : SnapshotCodec) (s : WorkflowSnapshot) (payload : Bytes),
      codec.encode s = .ok payload → codec.decode payload = .ok s →
        (encodeFramed codec s).bind (decodeFramed codec) = .ok s) ∧
    ∀ (codec writer : SnapshotCodec) (s : WorkflowSnapshot) (blob : Bytes),
      encodeFramed writer s = .ok blob → writer.codecId ≠ codec.codecId →
        decodeFramed codec blob
          = .error (.other (FormatError.codecMismatch codec.codecId writer.codecId).display) := by
  refine ⟨unframeSnapshotChecked_eq_iff bytes expected,
    fun payload => unframeSnapshotChecked_ok_iff, ?_, ?_⟩
  · intro codec s payload hencode hdecode
    rw [encodeFramed, hencode]
    change decodeFramed codec (frameSnapshot codec.codecId payload) = .ok s
    rw [decodeFramed_frame, if_neg (by simp), hdecode]
  · intro codec writer s blob hencode hne
    cases hpayload : writer.encode s with
    | error e => rw [encodeFramed, hpayload] at hencode; cases hencode
    | ok payload =>
      rw [encodeFramed, hpayload] at hencode
      cases hencode
      exact (decodeFramed_frame codec writer.codecId payload).trans (if_pos hne)

/-- Five bytes of a future version: too short for the header, and not reported as such. -/
theorem short_blob_of_other_version :
    unframeSnapshotChecked (snapshotMagic ++ [2]) .json = .error (.unsupportedVersion 2) ∧
      documentedChecks (snapshotMagic ++ [2]) .json = .error .truncated :=
  ⟨rfl, rfl⟩

/-! ## Blobs without task outputs -/

namespace WorkflowSnapshot

variable {s : WorkflowSnapshot}

/-- Output after output: the last one of a task is the one it gets. -/
theorem hydrateFrom_eq (outputs : List (TaskId × Bytes)) (s : WorkflowSnapshot) :
    s.hydrateFrom outputs = s.hydrateTaskOutputs fun t => outputs.reverse.lookup t := by
  induction outputs generalizing s with
  | nil => exact (mapOutputs_eq_self fun t r _ => rfl).symm
  | cons p outputs ih =>
    rw [hydrateFrom, List.foldl_cons, ← hydrateFrom, ih]
    unfold hydrateTaskOutputs
    rw [mapOutputs_mapOutputs]
    congr 1
    funext t output
    simp only [List.reverse_cons, List.lookup_append]
    have hlast : [p].lookup t = if t = p.1 then some p.2 else none := by
      by_cases ht : t = p.1
      · rw [if_pos ht, ht]
        exact List.lookup_cons_self
      · rw [if_neg ht, List.lookup_cons, beq_false_of_ne ht]
        rfl
    rw [hlast]
    cases outputs.reverse.lookup t <;> rfl

/-- Outputs that agree with the recorded ones, and have all that are not empty, restore a
snapshot that was stripped. -/
theorem hydrateFrom_strip {outputs : List (TaskId × Bytes)}
    (hagree : ∀ p ∈ outputs, ∀ r, s.getTaskResult p.1 = some r → p.2 = r.output)
    (hall : ∀ t r, s.getTaskResult t = some r → r.output = [] ∨ (t, r.output) ∈ outputs) :
    s.stripTaskOutputs.hydrateFrom outputs = s := by
  rw [hydrateFrom_eq, hydrateTaskOutputs, stripTaskOutputs, mapOutputs_mapOutputs]
  refine mapOutputs_eq_self ?_
  intro t r hr
  cases hlookup : outputs.reverse.lookup t with
  | some output =>
    obtain ⟨before, after, heq, -⟩ := List.lookup_eq_some_iff.mp hlookup
    have hmem : (t, output) ∈ outputs := by
      rw [← List.mem_reverse, heq]
      exact List.mem_append_right _ (List.mem_cons_self ..)
    exact hagree _ hmem r hr
  | none =>
    rcases hall t r hr with hnil | hmem
    · exact hnil.symm
    · have hne := List.lookup_eq_none_iff.mp hlookup _ (List.mem_reverse.mpr hmem)
      simp at hne

theorem mem_takeTaskOutputs {p : TaskId × Bytes} : p ∈ s.takeTaskOutputs.1 ↔
    ∃ t r, s.getTaskResult t = some r ∧ r.output ≠ [] ∧ p = (r.taskId, r.output) := by
  unfold takeTaskOutputs getTaskResult
  cases s.getAllTaskResults with
  | none => simp
  | some completed =>
    simp only [Option.elim_some, List.mem_filterMap, Option.bind_some]
    constructor
    · rintro ⟨⟨t, r⟩, hr, hp⟩
      split at hp
      · cases hp
      · next hne =>
        exact ⟨t, r, AList.mem_lookup_iff.mpr hr, by simpa using hne, by simpa using hp.symm⟩
    · rintro ⟨t, r, hr, hne, rfl⟩
      exact ⟨⟨t, r⟩, AList.mem_lookup_iff.mp hr, if_neg (by simpa using hne)⟩

/-- **Encoding preserves the snapshot**, whether the codec succeeds or not; what is encoded
does not depend on the outputs; and the outputs of the completed tasks, among whatever
others, restore a snapshot that was stripped. -/
theorem encodeBlobPreserving_preserves (codec : SnapshotCodec) (snapshotHash : Bytes → Hash32)
    (s : WorkflowSnapshot) (hkeys : ∀ t r, s.getTaskResult t = some r → r.taskId = t) :
    (encodeBlobPreserving codec snapshotHash s).2 = s ∧
    (∀ f, (encodeBlobPreserving codec snapshotHash (s.mapOutputs f)).1
      = (encodeBlobPreserving codec snapshotHash s).1) ∧
    ∀ outputs : List (TaskId × Bytes),
      (∀ p ∈ outputs, ∀ r, s.getTaskResult p.1 = some r → p.2 = r.output) →
      (∀ t r, s.getTaskResult t = some r → (t, r.output) ∈ outputs) →
        s.stripTaskOutputs.hydrateFrom outputs = s := by
  refine ⟨?_, ?_, ?_⟩
  · refine hydrateFrom_strip ?_ ?_
    · intro p hp r hr
      obtain ⟨t, r', hr', -, rfl⟩ := mem_takeTaskOutputs.mp hp
      rw [hkeys t r' hr', hr', Option.some_inj] at hr
      rw [hr]
    · intro t r hr
      by_cases hnil : r.output = []
      · exact .inl hnil
      · exact .inr (mem_takeTaskOutputs.mpr ⟨t, r, hr, hnil, by rw [hkeys t r hr]⟩)
  · intro f
    have hstrip : (s.mapOutputs f).stripTaskOutputs = s.stripTaskOutputs := by
      rw [stripTaskOutputs, mapOutputs_mapOutputs]
      rfl
    simp only [encodeBlobPreserving, takeTaskOutputs, hstrip]
  · intro outputs hagree hall
    exact hydrateFrom_strip hagree fun t r hr => .inr (hall t r hr)

theorem encodeBlobPreserving_preserves_one :
    let s := (new "order" ⟨0⟩).markTaskCompleted ⟨1⟩ [7]
    (encodeBlobPreserving ⟨.json, fun _ => .error (.other "too large"), fun _ => .ok s⟩
      (fun _ => ⟨List.replicate 32 0, rfl⟩) s).2 = s := by
  refine (encodeBlobPreserving_preserves _ _ _ ?_).1
  intro t r hr
  rw [getTaskResult_markTaskCompleted] at hr
  split at hr
  · next h => cases hr; exact h.2.symm
  · cases hr

end WorkflowSnapshot

/-! ## Loop envelopes -/

namespace SerdeJson

variable {ν : Type} {number : List Char → Option ν} {json : SerdeJson ν}

/-- `serde_json` reads and prints standard JSON: it reads exactly the UTF-8 encodings of
texts, as the values they denote, and what it prints of a value is a text of it. -/
structure Standard (json : SerdeJson ν) (number : List Char → Option ν) : Prop where
  reads : ∀ (text : String) (v : Json.Value ν),
    json.fromSlice (asBytes text) = .ok v ↔ Json.read number text.toList = some v
  text : ∀ bytes v, json.fromSlice bytes = .ok v → ∃ text, bytes = asBytes text
  prints : ∀ (text : String) (v : Json.Value ν), Json.read number text.toList = some v →
    ∃ printed, json.toVec v = .ok (asBytes printed) ∧
      Json.read number printed.toList = some v

/-- No text begins with one of the tags of the binary format. -/
theorem read_tag {c : Char} (h : c.toNat = 0 ∨ c.toNat = 1) (text : List Char) :
    Json.read number (c :: text) = none := by
  have hc : c = Char.ofNat 0 ∨ c = Char.ofNat 1 := by
    rcases h with h | h
    · exact .inl (by rw [← h, Char.ofNat_toNat])
    · exact .inr (by rw [← h, Char.ofNat_toNat])
  rcases hc with rfl | rfl <;> rfl

/-- A text does not begin with a byte that the binary format uses as a tag. -/
theorem first_byte {text : String} {v : Json.Value ν}
    (hread : Json.read number text.toList = some v) :
    ∃ first rest, asBytes text = first :: rest ∧ first ≠ 0 ∧ first ≠ 1 := by
  rw [asBytes_eq]
  cases htext : text.toList with
  | nil => rw [htext] at hread; cases hread
  | cons c cs =>
    rw [htext] at hread
    obtain ⟨first, more, hfirst⟩ := List.exists_cons_of_ne_nil
      (String.utf8EncodeChar_ne_nil (c := c))
    refine ⟨first, more ++ cs.flatMap String.utf8EncodeChar, by simp [hfirst], ?_⟩
    by_cases hascii : c.toNat < 128
    · rw [utf8EncodeChar_ascii hascii, List.cons.injEq] at hfirst
      have htag : ∀ n < 2, first = UInt8.ofNat n → c.toNat = n := by
        intro n hn h
        have hnat := congrArg UInt8.toNat (hfirst.1.trans h)
        simp only [UInt8.toNat_ofNat'] at hnat
        omega
      constructor
      · intro h
        rw [read_tag (.inl (htag 0 (by omega) h))] at hread
        cases hread
      · intro h
        rw [read_tag (.inr (htag 1 (by omega) h))] at hread
        cases hread
    · have hhigh := high_of_mem_utf8EncodeChar hascii first
        (by rw [hfirst]; exact List.mem_cons_self ..)
      exact ⟨by rintro rfl; simp at hhigh, by rintro rfl; simp at hhigh⟩

/-- **Loop envelopes are unambiguous.** The binary format is read back as it was written, a
JSON text of a decision and a value as the decision and a text of the value, and no bytes
are accepted by both readers. -/
theorem loop_envelopes_unambiguous (hjson : json.Standard number) (codec : EnvelopeCodec) :
    (∀ (decision : LoopDecision) (inner : Bytes),
      decodeLoopEnvelope (codec.withJson json) (encodeLoopEnvelope decision inner)
        = .ok (decision, inner)) ∧
    (∀ (decision : LoopDecision) (ws text vtext : List Char) (v : Json.Value ν),
      (∀ c ∈ ws, Json.isWhitespace c = true) → Json.read number vtext = some v →
      Json.read number text
        = some (.object [("_loop", .string decision.asRef), ("value", v)]) →
      ∃ inner : String,
        decodeLoopEnvelope (codec.withJson json) (asBytes (String.ofList (ws ++ text)))
            = .ok (decision, asBytes inner) ∧
          Json.read number inner.toList = some v) ∧
    ∀ (bytes : Bytes) (a b : LoopDecision × Bytes),
      decodeBinaryLoopEnvelope bytes = .ok a → json.decodeLoopJson bytes ≠ .ok b := by
  refine ⟨?_, ?_, ?_⟩
  · intro decision inner
    cases decision <;> rfl
  · intro decision ws text vtext v hws hvtext htext
    obtain ⟨inner, hprint, hinner⟩ := hjson.prints (String.ofList vtext) v
      (by rw [String.toList_ofList]; exact hvtext)
    refine ⟨inner, ?_, hinner⟩
    have hread : Json.read number (String.ofList (ws ++ text)).toList
        = some (.object [("_loop", .string decision.asRef), ("value", v)]) := by
      rw [String.toList_ofList, Json.read_append_of_whitespace hws, htext]
    obtain ⟨first, rest, hbytes, h0, h1⟩ := first_byte hread
    have hslice := (hjson.reads _ _).mpr hread
    rw [hbytes] at hslice ⊢
    rw [decodeLoopEnvelope, if_neg h0, if_neg h1]
    change json.decodeLoopJson (first :: rest) = _
    rw [decodeLoopJson, hslice]
    -- the tag is read back as the decision, whichever it is
    cases decision with
    | again =>
      change (do return (.again, ← json.toVec v) : Except BoxError (LoopDecision × Bytes)) = _
      rw [hprint]
      rfl
    | done =>
      change (do return (.done, ← json.toVec v) : Except BoxError (LoopDecision × Bytes)) = _
      rw [hprint]
      rfl
  · intro bytes a b hbinary hjsonok
    cases hslice : json.fromSlice bytes with
    | error e => rw [decodeLoopJson, hslice] at hjsonok; cases hjsonok
    | ok v =>
      obtain ⟨text, rfl⟩ := hjson.text bytes v hslice
      obtain ⟨first, rest, hbytes, h0, h1⟩ := first_byte ((hjson.reads text v).mp hslice)
      rw [hbytes, decodeBinaryLoopEnvelope, if_neg h0, if_neg h1] at hbinary
      cases hbinary

/-- A reader and printer that are standard by construction. -/
noncomputable def reference (number : List Char → Option ν) : SerdeJson ν where
  fromSlice bytes := open scoped Classical in
    if h : ∃ text : String, asBytes text = bytes then
      match Json.read number h.choose.toList with
      | some v => .ok v
      | none => .error (.other "not JSON")
    else .error (.other "not JSON")
  toVec v := open scoped Classical in
    if h : ∃ text : String, Json.read number text.toList = some v then .ok (asBytes h.choose)
    else .error (.other "not a value")

theorem reference_standard (number : List Char → Option ν) :
    (reference number).Standard number where
  reads text v := by
    have hex : ∃ t : String, asBytes t = asBytes text := ⟨text, rfl⟩
    have hchoose : hex.choose = text := asBytes_injective hex.choose_spec
    simp only [reference, dif_pos hex, hchoose]
    cases Json.read number text.toList <;> simp
  text bytes v h := by
    by_cases hex : ∃ t : String, asBytes t = bytes
    · exact hex.imp fun t ht => ht.symm
    · simp [reference, dif_neg hex] at h
  prints text v h := by
    have hex : ∃ t : String, Json.read number t.toList = some v := ⟨text, h⟩
    exact ⟨hex.choose, dif_pos hex, hex.choose_spec⟩

/-- The value is the JSON form of a loop that is done. -/
def isLoopResult : Option (Json.Value Unit) → Bool
  | some (.object [(loop, .string tag), (value, .null)]) =>
    decide (loop = "_loop" ∧ tag = "done" ∧ value = "value")
  | _ => false

theorem read_loopResult : Json.read (fun _ => some ())
    "\x7b\"_loop\": \"done\", \"value\": null\x7d".toList
      = some (.object [("_loop", .string "done"), ("value", .null)]) := by
  -- values have no decidable equality, so the kernel is asked for the members one by one
  have h : isLoopResult (Json.read (fun _ => some ())
      "\x7b\"_loop\": \"done\", \"value\": null\x7d".toList) = true := by decide +kernel
  unfold isLoopResult at h
  split at h
  · next heq =>
    obtain ⟨rfl, rfl, rfl⟩ := of_decide_eq_true h
    exact heq
  · cases h

/-- A `LoopResult` as the bindings write it, after a line break. -/
theorem loop_envelopes_unambiguous_done :
    ∃ inner : String,
      decodeLoopEnvelope (EnvelopeCodec.plain.withJson (reference fun _ => some ()))
          (asBytes (String.ofList ("\n".toList ++
            "\x7b\"_loop\": \"done\", \"value\": null\x7d".toList)))
          = .ok (.done, asBytes inner) ∧
        Json.read (fun _ => some ()) inner.toList = some .null :=
  (loop_envelopes_unambiguous (reference_standard _) .plain).2.1 .done _ _ "null".toList _
    (by simp [Json.isWhitespace]) rfl read_loopResult

end SerdeJson

end Sayiir
