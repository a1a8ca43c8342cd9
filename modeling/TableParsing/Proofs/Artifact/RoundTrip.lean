import TableParsing.Artifact.Container
import TableParsing.Proofs.Artifact.Codec
import TableParsing.Proofs.Reachable

/-!
# Reading back an artifact

Every part of a table is read back from its bytes, and the header of an artifact agrees with the
payload it was made for. So a table of a supported version that fits into an artifact is read back
from it whole, without its scanner, whatever checksum is used.
-/
namespace TableParsing

open Codec

namespace Payload

theorem symbol_lawful : symbol.Lawful := uint16_lawful.map fun _ => rfl

theorem fieldId_lawful : fieldId.Lawful := uint16_lawful.map fun _ => rfl

theorem variant_readsBack {n : Nat} (h : n < 251) : variant.ReadsBack n :=
  varint_readsBack (by omega) (by omega) (by omega) (by unfold tooMany; omega)

theorem symbolKind_lawful : symbolKind.Lawful := by
  constructor
  · intro k
    exact writeVarint_pos _
  · intro k _
    refine ReadsBack.partialMap (variant_readsBack ?_) ?_
    · cases k <;> decide
    · cases k <;> rfl

theorem symbolMetadata_lawful : symbolMetadata.Lawful :=
  (string_lawful.pair (symbolKind_lawful.pair (bool_lawful.pair
    (bool_lawful.pair bool_lawful)))).map fun _ => rfl

theorem production_lawful : production.Lawful :=
  (symbol_lawful.pair (uint16_lawful.pair (uint16_lawful.pair fieldId_lawful).list)).map fun _ => rfl

theorem action_lawful : action.Lawful := by
  constructor
  · intro a
    have hv (n : Nat) : 0 < (variant.encode n).length := writeVarint_pos n
    cases a with
    | shift next => exact List.length_append ▸ Nat.add_pos_left (hv 0) _
    | reduce p => exact List.length_append ▸ Nat.add_pos_left (hv 1) _
    | accept => exact hv 2
  · intro a hlen rest
    cases a with
    | shift next =>
      simp only [action, List.length_append] at hlen
      have hv := variant_readsBack (n := 0) (by omega) (uint16.encode next ++ rest)
      have hn := uint16_lawful.readsBack next (by omega) rest
      simp only [action, List.append_assoc, hv, hn, Option.map_some]
    | reduce p =>
      simp only [action, List.length_append] at hlen
      have hv := variant_readsBack (n := 1) (by omega) (uint16.encode p ++ rest)
      have hn := uint16_lawful.readsBack p (by omega) rest
      simp only [action, List.append_assoc, hv, hn, Option.map_some]
    | accept =>
      have hv := variant_readsBack (n := 2) (by omega) rest
      simp only [action, hv]

theorem parseState_lawful : parseState.Lawful :=
  ((symbol_lawful.pair action_lawful).array.pair (symbol_lawful.pair uint16_lawful).array).map
    fun _ => rfl

theorem byteRange_lawful : byteRange.Lawful := (byte_lawful.pair byte_lawful).map fun _ => rfl

theorem lexState_lawful : lexState.Lawful :=
  (symbol_lawful.option.pair (byteRange_lawful.pair uint16_lawful).list).map fun _ => rfl

theorem table_lawful : table.Lawful :=
  (string_lawful.pair (uint32_lawful.pair (symbolMetadata_lawful.array.pair
    (string_lawful.array.pair (production_lawful.array.pair (parseState_lawful.array.pair
      (lexState_lawful.array.pair (byteRange_lawful.list.pair (symbol_lawful.option.pair
        ((string_lawful.pair symbol_lawful).list.pair symbol_lawful.list)))))))))).map fun _ => rfl

end Payload

namespace Artifact

variable (checksum : Bytes → Checksum) {version : UInt32} {payload : Bytes}

theorem length_header (version : UInt32) (payload : Bytes) :
    (header checksum version payload).length = headerSize := by
  simp [header, magic, headerSize]

/-- The four bytes at an offset, with what stands before and behind them. -/
theorem wordAt_append {before after : Bytes} {n offset : Nat} (hlen : before.length = offset)
    (h : n < 0x100000000) : wordAt (before ++ (littleEndian n 4 ++ after)) offset = n := by
  have hpow : Nat.pow 256 4 = 0x100000000 := rfl
  rw [wordAt, ← hlen, List.drop_left, List.take_append_of_le_length (by simp),
    List.take_of_length_le (by simp), ofLittleEndian_littleEndian, hpow, Nat.mod_eq_of_lt h]

theorem wordAt_version (version : UInt32) (payload rest : Bytes) :
    wordAt (header checksum version payload ++ rest) 4 = version.toNat := by
  simp only [header, List.append_assoc]
  exact wordAt_append rfl version.toNat_lt

theorem wordAt_length (hlen : payload.length ≤ maxPayload) (rest : Bytes) :
    wordAt (header checksum version payload ++ rest) 40 = payload.length := by
  have hmax : maxPayload = 0xFFFFFFFF := rfl
  rw [header, List.append_assoc]
  exact wordAt_append (by simp [magic]) (by omega)

theorem checksum_header (rest : Bytes) :
    ((header checksum version payload ++ rest).drop 8).take 32 = (checksum payload).toList := by
  have hlen : (magic ++ littleEndian version.toNat 4).length = 8 := by simp [magic]
  simp only [header, List.append_assoc]
  rw [← List.append_assoc magic, ← hlen, List.drop_left,
    List.take_append_of_le_length (by simp), List.take_of_length_le (by simp)]

/-- An artifact is read as its payload is. -/
theorem read_header (hv : isSupported version = true) (hlen : payload.length ≤ maxPayload) :
    read checksum (header checksum version payload ++ payload) = readPayload version payload := by
  have hsize := length_header checksum version payload
  have hmagic : isArtifact (header checksum version payload ++ payload) = true := rfl
  have hdrop : (header checksum version payload ++ payload).drop headerSize = payload := by
    rw [← hsize, List.drop_left]
  have h44 : headerSize = 44 := rfl
  have h4 : magic.length = 4 := rfl
  rw [read, List.length_append, hsize, if_neg (by omega), hmagic, if_neg (by simp),
    if_neg (by omega)]
  simp only [wordAt_version, wordAt_length checksum hlen, hdrop, checksum_header,
    UInt32.ofNat_toNat, hv, Bool.not_true, Bool.false_eq_true, ne_eq, not_true, if_false]

/-- The payload of what is written is read whole. -/
theorem decode_encode {t : GrammarTable} (hlen : (Payload.table.encode t).length ≤ maxPayload) :
    Payload.table.decode (Payload.table.encode t) = some (t, []) := by
  have hmax : maxPayload < tooMany := by decide
  have hread := Payload.table_lawful.readsBack t (by omega) []
  rwa [List.append_nil] at hread

theorem readPayload_encode {t : GrammarTable} (hlen : (Payload.table.encode t).length ≤ maxPayload) :
    readPayload t.version (Payload.table.encode t) = .ok t := by
  simp [readPayload, decode_encode hlen]

/-- A grammar whose version is supported and whose payload fits is written, and reading what was
written gives its table back in every part, without a scanner. -/
theorem read_write (g : Grammar) (hold : 13 ≤ g.table.version) (hnew : g.table.version ≤ 15)
    (hlen : (Payload.table.encode g.table).length < UInt32.size) :
    ∃ bytes, writeGrammar checksum g = .ok bytes ∧
      readGrammar checksum bytes = .ok { g with scanner := none } := by
  have hv : isSupported g.table.version = true := by
    simp [isSupported, oldestVersion, newestVersion, hold, hnew]
  have hmax : maxPayload + 1 = UInt32.size := rfl
  refine ⟨header checksum g.table.version (Payload.table.encode g.table) ++
    Payload.table.encode g.table, ?_, ?_⟩
  · rw [writeGrammar, write, if_neg (by omega)]
  · rw [readGrammar, read_header checksum hv (by omega), readPayload_encode (by omega)]
    rfl

/-- The language of one word, with a scanner that is lost on the way. -/
theorem read_write_word :
    let g : Grammar := ⟨Word.table, some fun _ _ _ => none⟩
    13 ≤ g.table.version ∧ g.table.version ≤ 15 ∧
      (Payload.table.encode g.table).length < UInt32.size ∧
      ∃ bytes, g.toArtifact = .ok bytes ∧
        Grammar.ofArtifact bytes = .ok { g with scanner := none } := by
  intro g
  have hlen : (Payload.table.encode g.table).length < UInt32.size := by decide +kernel
  exact ⟨by decide, by decide, hlen, read_write Sha256.digest g (by decide) (by decide) hlen⟩

end Artifact

end TableParsing
