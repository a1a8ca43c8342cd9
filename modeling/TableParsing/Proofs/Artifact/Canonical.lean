import TableParsing.Proofs.Artifact.RoundTrip
import TableParsing.Proofs.Artifact.Shortest

/-!
# Accepted artifacts

An accepted artifact is the header of its payload with the payload behind it, and nothing else. So
the payload determines the artifact, and writing what was read only brings the numbers of the
payload into their shortest form.
-/
namespace TableParsing.Artifact

open Codec

variable (checksum : Bytes → Checksum) {d payload : Bytes} {t : GrammarTable} {version : UInt32}

/-! ## What is accepted -/

theorem littleEndian_wordAt {offset : Nat} (h : offset + 4 ≤ d.length) :
    littleEndian (wordAt d offset) 4 = (d.drop offset).take 4 := by
  have hlen : ((d.drop offset).take 4).length = 4 := by
    rw [List.length_take, List.length_drop]
    omega
  have hbytes := littleEndian_ofLittleEndian ((d.drop offset).take 4)
  rwa [hlen] at hbytes

theorem wordAt_lt (bytes : Bytes) (offset : Nat) : wordAt bytes offset < 0x100000000 := by
  have hpow : Nat.pow 256 4 = 0x100000000 := rfl
  have hlt := ofLittleEndian_lt ((bytes.drop offset).take 4)
  have hle : Nat.pow 256 ((bytes.drop offset).take 4).length ≤ Nat.pow 256 4 :=
    Nat.pow_le_pow_right (by decide) (List.length_take_le _ _)
  rw [wordAt]
  omega

/-- The parts of a header, in their order, with what stands behind them. -/
theorem eq_parts (d : Bytes) : d =
    d.take 4 ++ (d.drop 4).take 4 ++ (d.drop 8).take 32 ++ (d.drop 40).take 4 ++ d.drop headerSize := by
  have hcut (offset count : Nat) :
      (d.drop offset).take count ++ d.drop (offset + count) = d.drop offset := by
    rw [← List.drop_drop, List.take_append_drop]
  simp only [List.append_assoc]
  rw [show d.drop headerSize = d.drop (40 + 4) from rfl, hcut 40 4,
    show d.drop 40 = d.drop (8 + 32) from rfl, hcut 8 32, show d.drop 8 = d.drop (4 + 4) from rfl,
    hcut 4 4, List.take_append_drop]

theorem readPayload_eq_ok :
    readPayload version payload = .ok t ↔
      t.version = version ∧ Payload.table.decode payload = some (t, []) := by
  constructor
  · intro h
    unfold readPayload at h
    split at h
    · cases h
    · rename_i rest hd
      split_ifs at h with hrest hv
      cases h
      obtain rfl : rest = [] := by simpa using hrest
      exact ⟨not_not.mp hv, hd⟩
  · rintro ⟨rfl, hd⟩
    simp [readPayload, hd]

/-- The bytes that are accepted are the headers with their payloads. -/
theorem read_eq_ok : read checksum d = .ok t ↔
    isSupported t.version = true ∧ ∃ payload, payload.length ≤ maxPayload ∧
      d = header checksum t.version payload ++ payload ∧
      Payload.table.decode payload = some (t, []) := by
  constructor
  · intro h
    simp only [read] at h
    split_ifs at h with hshort hmagic hheader hv hlen hsum
    obtain ⟨hversion, hd⟩ := readPayload_eq_ok.mp h
    have hsize : headerSize = 44 := rfl
    have hlt := wordAt_lt d 40
    have hmax : maxPayload = 0xFFFFFFFF := rfl
    refine ⟨by rw [hversion]; simpa using hv, d.drop headerSize, by omega, ?_, hd⟩
    have hstart : d.take 4 = magic := by
      have hprefix : magic <+: d := by simpa [isArtifact] using hmagic
      exact (List.prefix_iff_eq_take.mp hprefix).symm
    have hword : littleEndian t.version.toNat 4 = (d.drop 4).take 4 := by
      rw [hversion, UInt32.toNat_ofNat_of_lt' (wordAt_lt d 4), littleEndian_wordAt (by omega)]
    have hcount : littleEndian (d.drop headerSize).length 4 = (d.drop 40).take 4 := by
      rw [not_not.mp hlen, littleEndian_wordAt (by omega)]
    rw [header, hword, not_not.mp hsum, hcount, ← hstart]
    exact eq_parts d
  · rintro ⟨hv, payload, hlen, rfl, hd⟩
    rw [read_header checksum hv hlen, readPayload_eq_ok]
    exact ⟨rfl, hd⟩

theorem drop_header (rest : Bytes) :
    (header checksum version payload ++ rest).drop headerSize = rest := by
  rw [← length_header checksum version payload, List.drop_left]

theorem error_of_not_ok {bytes : Bytes} (h : ∀ t, read checksum bytes ≠ .ok t) :
    ∃ e, read checksum bytes = .error e := by
  cases hr : read checksum bytes with
  | error e => exact ⟨e, rfl⟩
  | ok t => exact absurd hr (h t)

/-! ## The payload determines the artifact -/

theorem eq_of_payload_eq {d' : Bytes} {t' : GrammarTable} (h : read checksum d = .ok t)
    (h' : read checksum d' = .ok t') (hp : d'.drop headerSize = d.drop headerSize) : d' = d := by
  obtain ⟨_, payload, _, rfl, hd⟩ := (read_eq_ok checksum).mp h
  obtain ⟨_, payload', _, rfl, hd'⟩ := (read_eq_ok checksum).mp h'
  rw [drop_header, drop_header] at hp
  subst hp
  rw [hd] at hd'
  cases hd'
  rfl

/-- The header of an accepted artifact tells where it ends. -/
theorem eq_of_beginning {d' : Bytes} {t' : GrammarTable} (h : read checksum d = .ok t)
    (h' : read checksum d' = .ok t') (hp : d <+: d') : d = d' := by
  apply hp.eq_of_length
  obtain ⟨_, payload, hlen, rfl, _⟩ := (read_eq_ok checksum).mp h
  obtain ⟨_, payload', hlen', rfl, _⟩ := (read_eq_ok checksum).mp h'
  obtain ⟨rest, hrest⟩ := hp
  have hword : wordAt (header checksum t'.version payload' ++ payload') 40 = payload'.length :=
    wordAt_length checksum hlen' payload'
  rw [← hrest, List.append_assoc, wordAt_length checksum hlen] at hword
  rw [List.length_append, List.length_append, length_header, length_header, hword]

/-- An accepted artifact is the only one with its payload, and no other bytes of which it is the
beginning, or which are its beginning, are accepted. -/
theorem accepted_unique (h : read checksum d = .ok t) :
    (∀ ⦃d' t'⦄, read checksum d' = .ok t' → d'.drop headerSize = d.drop headerSize → d' = d) ∧
    (∀ start, start.length = headerSize → start ≠ d.take headerSize →
      ∃ e, read checksum (start ++ d.drop headerSize) = .error e) ∧
    (∀ d', d' <+: d → d' ≠ d → ∃ e, read checksum d' = .error e) ∧
    ∀ d', d <+: d' → d' ≠ d → ∃ e, read checksum d' = .error e := by
  refine ⟨fun d' t' h' => eq_of_payload_eq checksum h h', ?_, ?_, ?_⟩
  · intro start hstart hne
    refine error_of_not_ok checksum fun t' h' => hne ?_
    have heq := eq_of_payload_eq checksum h h' (by rw [← hstart, List.drop_left, hstart])
    rw [← heq, ← hstart, List.take_left]
  · intro d' hp hne
    exact error_of_not_ok checksum fun t' h' => hne (eq_of_beginning checksum h' h hp)
  · intro d' hp hne
    exact error_of_not_ok checksum fun t' h' => hne (eq_of_beginning checksum h h' hp).symm

/-- The payload of the language of one word, with the length of its name in three bytes. -/
def longPayload : Bytes := 251 :: 4 :: 0 :: (Payload.table.encode Word.table).tail

/-- It is accepted, and not what is written for the language. -/
def longArtifact : Bytes := header Sha256.digest newestVersion longPayload ++ longPayload

theorem read_longArtifact : read Sha256.digest longArtifact = .ok Word.table := by
  have hd : Payload.table.decode longPayload = some (Word.table, []) := by decide +kernel
  have hlen : longPayload.length ≤ maxPayload := by decide +kernel
  exact (read_eq_ok Sha256.digest).mpr ⟨by decide, longPayload, hlen, rfl, hd⟩

theorem longArtifact_unique :
    read Sha256.digest longArtifact = .ok Word.table ∧
    (∀ ⦃d' t'⦄, read Sha256.digest d' = .ok t' →
      d'.drop headerSize = longArtifact.drop headerSize → d' = longArtifact) ∧
    (∀ start, start.length = headerSize → start ≠ longArtifact.take headerSize →
      ∃ e, read Sha256.digest (start ++ longArtifact.drop headerSize) = .error e) ∧
    (∀ d', d' <+: longArtifact → d' ≠ longArtifact → ∃ e, read Sha256.digest d' = .error e) ∧
    ∀ d', longArtifact <+: d' → d' ≠ longArtifact → ∃ e, read Sha256.digest d' = .error e :=
  ⟨read_longArtifact, accepted_unique Sha256.digest read_longArtifact⟩

/-! ## Writing what was read -/

theorem write_eq_ok {b : Bytes} : write checksum t = .ok b ↔
    (Payload.table.encode t).length ≤ maxPayload ∧
      b = header checksum t.version (Payload.table.encode t) ++ Payload.table.encode t := by
  simp only [write]
  split_ifs with hlen
  · simp [Nat.not_le.mpr hlen]
  · simp [Nat.not_lt.mp hlen, eq_comm]

theorem write_injective {t' : GrammarTable} {b : Bytes} (h : write checksum t = .ok b)
    (h' : write checksum t' = .ok b) : t = t' := by
  obtain ⟨hlen, rfl⟩ := (write_eq_ok checksum).mp h
  obtain ⟨hlen', hb⟩ := (write_eq_ok checksum).mp h'
  have hp := congrArg (List.drop headerSize) hb
  rw [drop_header, drop_header] at hp
  have hd := decode_encode hlen
  rw [hp, decode_encode hlen'] at hd
  cases hd
  rfl

/-- A table that was read is written in no more bytes than it was read from, in the same ones
exactly when all their numbers are in the shortest form; and it is read back. Distinct tables are
written as distinct artifacts. -/
theorem write_of_read :
    (∀ ⦃d t⦄, read checksum d = .ok t → ∃ b, write checksum t = .ok b ∧ b.length ≤ d.length ∧
      read checksum b = .ok t ∧
      (b = d ↔ ∀ form ∈ Payload.tableNumbers.forms (d.drop headerSize), IsShortest form)) ∧
    ∀ ⦃t t' b⦄, write checksum t = .ok b → write checksum t' = .ok b → t = t' := by
  refine ⟨?_, fun t t' b => write_injective checksum⟩
  intro d t h
  obtain ⟨hv, payload, hlen, rfl, hd⟩ := (read_eq_ok checksum).mp h
  obtain ⟨taken, htaken, hc⟩ := Payload.table_condensed hd
  rw [List.append_nil] at htaken
  subst htaken
  have hshort := Nat.le_trans hc.length_le hlen
  refine ⟨_, (write_eq_ok checksum).mpr ⟨hshort, rfl⟩, ?_, ?_, ?_⟩
  · rw [List.length_append, List.length_append, length_header, length_header]
    exact Nat.add_le_add_left hc.length_le _
  · exact (read_eq_ok checksum).mpr ⟨hv, _, hshort, rfl, decode_encode hshort⟩
  · rw [drop_header, ← hc.eq_iff]
    constructor
    · intro heq
      have hdrop := congrArg (List.drop headerSize) heq
      rwa [drop_header, drop_header] at hdrop
    · intro heq
      rw [heq]

theorem write_of_read_longArtifact :
    read Sha256.digest longArtifact = .ok Word.table ∧
    ∃ b, write Sha256.digest Word.table = .ok b ∧ b.length ≤ longArtifact.length ∧
      read Sha256.digest b = .ok Word.table ∧
      (b = longArtifact ↔
        ∀ form ∈ Payload.tableNumbers.forms (longArtifact.drop headerSize), IsShortest form) ∧
      ∀ t, write Sha256.digest t = .ok b → t = Word.table := by
  obtain ⟨b, hb, hparts⟩ := (write_of_read Sha256.digest).1 read_longArtifact
  exact ⟨read_longArtifact, b, hb, hparts.1, hparts.2.1, hparts.2.2,
    fun t ht => (write_of_read Sha256.digest).2 ht hb⟩

end TableParsing.Artifact
