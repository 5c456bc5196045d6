import Kcov.SystemMode.Processing

/-! Files that are offered to the decoder of processed files: when it stays inside their bytes. -/

namespace Kcov.SystemMode

open Bytes

/-- The trailer at the end of a file. -/
def lastTrailer (host : Endian) (fileData : List Byte) : Trailer :=
  Trailer.decode host (fileData.drop (fileData.length - sizeofTrailer))

/-- `fromProcessedFile` returns NULL, or it has only looked at bytes of the file, copied the entry
table into a block with enough room, and taken as many values from that block as the trailer says. -/
structure DecodesSafely (host : Endian) (base : Nat) (fileData : List Byte) : Prop where
  inside : StaysInside (fromProcessedFile host base fileData)
  count : ∀ f, fromProcessedFile host base fileData = .ok f →
    f.entries.length = (lastTrailer host fileData).nEntries.toNat

/-- The parts that a trailer locates in front of itself: the last byte of the file name is in the
file; if it is NUL, then so is that of the options; and if that is NUL as well, the file name starts
in the file, and the block for the entries has room for the table and for the values. -/
def PartsFit (fileData : List Byte) (t : Trailer) : Prop :=
  let options : Int := fileData.length - sizeofTrailer - t.compressedSize.toNat - t.optionsSize.toNat
  let filename : Int := options - t.filenameSize.toNat
  ∃ filenameEnd ∈ byteAt fileData (filename + (t.filenameSize - 1).toNat), filenameEnd = 0 →
    ∃ optionsEnd ∈ byteAt fileData (options + (t.optionsSize - 1).toNat), optionsEnd = 0 →
      0 ≤ filename ∧ t.compressedSize.toNat ≤ t.uncompressedSize.toNat ∧
        8 * t.nEntries.toNat ≤ t.uncompressedSize.toNat

instance (fileData : List Byte) (t : Trailer) : Decidable (PartsFit fileData t) :=
  inferInstanceAs (Decidable (∃ _ ∈ _, _ → ∃ _ ∈ _, _ → _ ∧ _ ∧ _))

section Decoding

variable {host : Endian} {base : Nat} {fileData block : List Byte} {f : SystemModeFile} {t : Trailer}

/-- The loop over the entries reads inside its block exactly if all of them have room. -/
theorem takeEntries_staysInside {n : Nat} (hn : n < 65536) (hf : f.entries = []) :
    StaysInside (takeEntries host block n f) ↔ 8 * n ≤ block.length := by
  suffices h : (8 * n ≤ block.length → ∃ g, takeEntries host block n f = .ok g) ∧
      (block.length < 8 * n → takeEntries host block n f = .error .outOfBounds) by
    by_cases hroom : 8 * n ≤ block.length
    · obtain ⟨g, hg⟩ := h.1 hroom
      simp [hg, hroom]
    · simp [h.2 (Nat.lt_of_not_le hroom), hroom]
  induction n with
  | zero => exact ⟨fun _ => ⟨f, rfl⟩, by simp⟩
  | succ n ih =>
    obtain ⟨ihroom, ihfull⟩ := ih (by omega)
    rw [takeEntries_succ]
    by_cases hroom : 8 * n ≤ block.length
    · obtain ⟨g, hg⟩ := ihroom hroom
      have hlen := (takeEntries_eq_ok host block (by omega) hf hg).1
      rw [hg, ok_bind, Bytes.read]
      constructor
      · intro hnext
        rw [if_pos (by omega), inBounds_some, ok_bind,
          addEntry_next g _ hlen (show n + 1 < 2 ^ 32 by omega)]
        exact ⟨_, rfl⟩
      · intro hfull
        rw [if_neg (by omega)]
        rfl
    · rw [ihfull (by omega)]
      exact ⟨fun h => absurd h (by omega), fun _ => rfl⟩

/-- The block of the entries: the table must fit into it. -/
theorem uncompressEntries_isSome {data : List Byte} {size : Nat} :
    (uncompressEntries data size).isSome ↔ data.length ≤ size := by
  rw [uncompressEntries, write, List.length_replicate, Nat.zero_add]
  split
  next h => simp [h]
  next h => simp [h]

theorem length_uncompressEntries {data out : List Byte} {size : Nat}
    (h : uncompressEntries data size = some out) : out.length = size := by
  rw [length_write h, List.length_replicate]

/-- The second half of `parse` stays inside the file exactly if the parts fit. -/
theorem parseParts_staysInside :
    StaysInside (parseParts host fileData t (fileData.length - sizeofTrailer)) ↔
      ((t.filenameSize + t.optionsSize + t.compressedSize).toNat ≤
        fileData.length + sizeofTrailer → PartsFit fileData t) := by
  have hn : t.nEntries.toNat < 65536 := t.nEntries.isLt
  rw [parseParts, staysInside_refuseIf_bind, not_lt]
  refine imp_congr_right fun _ => ?_
  simp only [staysInside_inBounds_bind, staysInside_refuseIf_bind, ne_eq, not_not]
  rw [PartsFit]
  refine exists_congr fun filenameEnd => and_congr_right fun hfilename => ?_
  refine imp_congr_right fun hzero => ?_
  refine exists_congr fun optionsEnd => and_congr_right fun hoptions => ?_
  refine imp_congr_right fun hzero' => ?_
  subst hzero hzero'
  constructor
  · rintro ⟨name, hname, opts, hopts, table, htable, block, hblock, htake⟩
    have hroom := uncompressEntries_isSome.mp (Option.isSome_iff_exists.mpr ⟨block, hblock⟩)
    rw [length_bytesAt htable] at hroom
    rw [takeEntries_staysInside hn rfl, length_uncompressEntries hblock] at htake
    exact ⟨cStringAt_nonneg hname, hroom, htake⟩
  · rintro ⟨hstart, hroom, htake⟩
    obtain ⟨name, hname⟩ := Option.isSome_iff_exists.mp
      (cStringAt_isSome hstart (by omega) hfilename)
    obtain ⟨opts, hopts⟩ := Option.isSome_iff_exists.mp (@cStringAt_isSome fileData
      (fileData.length - sizeofTrailer - t.compressedSize.toNat - t.optionsSize.toNat) _
      (by omega) (by omega) hoptions)
    obtain ⟨table, htable⟩ := Option.isSome_iff_exists.mp ((@bytesAt_isSome fileData
      (fileData.length - sizeofTrailer - t.compressedSize.toNat)
      t.compressedSize.toNat).mpr ⟨by omega, by omega⟩)
    rw [← length_bytesAt htable] at hroom
    obtain ⟨block, hblock⟩ := Option.isSome_iff_exists.mp (uncompressEntries_isSome.mpr hroom)
    rw [← length_uncompressEntries hblock] at htake
    exact ⟨name, hname, opts, hopts, table, htable, block, hblock,
      (takeEntries_staysInside hn rfl).mpr htake⟩

theorem bytesAt_last {n : Nat} (h : n ≤ fileData.length) :
    bytesAt fileData (fileData.length - n) n = some (fileData.drop (fileData.length - n)) := by
  rw [← Int.natCast_sub h, bytesAt_natCast, read_eq_some]
  refine ⟨by omega, (List.take_of_length_le ?_).symm⟩
  rw [List.length_drop]
  omega

/-- The first half of `parse` refuses empty and unaligned files, reads in front of short ones, and
finds the trailer at the end of the others. -/
theorem parseTrailer_eq (hbase : base % 8 = 0) : parseTrailer host base fileData =
    if fileData = [] ∨ fileData.length % 8 ≠ 0 then .error .rejected
    else if fileData.length < sizeofTrailer then .error .outOfBounds
    else refuseIf (unmarshalTrailer (lastTrailer host fileData) = false) >>= fun _ =>
      .ok (lastTrailer host fileData) := by
  have hsize : sizeofTrailer = 32 := rfl
  rw [parseTrailer]
  by_cases hne : fileData = []
  · rw [refuseIf_pos (by simp [hne]), error_bind, if_pos (Or.inl hne)]
  have hpos := List.length_pos_iff.mpr hne
  rw [refuseIf_neg (by omega), ok_bind]
  by_cases halign : fileData.length % 8 = 0
  · rw [refuseIf_neg (by omega), ok_bind, if_neg (by simp [hne, halign])]
    split
    next hshort =>
      have hbytes : bytesAt fileData (fileData.length - sizeofTrailer) sizeofTrailer = none :=
        if_neg (by omega)
      rw [hbytes]
      rfl
    next hroom =>
      rw [bytesAt_last (Nat.le_of_not_lt hroom), inBounds_some, ok_bind]
      rfl
  · rw [refuseIf_pos (by omega), error_bind, if_pos (Or.inr halign)]

/-- As many values are taken as the trailer says. -/
theorem length_entries (hbase : base % 8 = 0) (h : fromProcessedFile host base fileData = .ok f) :
    f.entries.length = (lastTrailer host fileData).nEntries.toNat := by
  obtain ⟨t, ht, hparts⟩ := bind_eq_ok.mp h
  rw [parseTrailer_eq hbase] at ht
  split_ifs at ht
  obtain ⟨-, -, htrailer⟩ := bind_eq_ok.mp ht
  cases htrailer
  exact (parseParts_eq_ok hparts).1

end Decoding

/-- The decoder is safe on a file exactly if the file is empty or not aligned, or it has room for a
trailer and the parts fit, where the trailer is a valid one and the sum of its sizes, in 32 bits, is
not refused. -/
theorem decodesSafely_iff (host : Endian) {base : Nat} (hbase : base % 8 = 0)
    (fileData : List Byte) : DecodesSafely host base fileData ↔
      (fileData ≠ [] → fileData.length % 8 = 0 → sizeofTrailer ≤ fileData.length ∧
        (unmarshalTrailer (lastTrailer host fileData) = true →
          ((lastTrailer host fileData).filenameSize + (lastTrailer host fileData).optionsSize +
            (lastTrailer host fileData).compressedSize).toNat ≤ fileData.length + sizeofTrailer →
          PartsFit fileData (lastTrailer host fileData))) := by
  have hsafe : DecodesSafely host base fileData ↔
      StaysInside (fromProcessedFile host base fileData) :=
    ⟨fun h => h.inside, fun h => ⟨h, fun _ => length_entries hbase⟩⟩
  rw [hsafe, fromProcessedFile, parseTrailer_eq hbase]
  split
  next hrefused =>
    refine iff_of_true (by simp) fun hne halign => ?_
    exact absurd hrefused (by simp [hne, halign])
  next hkept =>
    obtain ⟨hne, halign⟩ := not_or.mp hkept
    split
    next hshort =>
      refine iff_of_false (by simp) fun h => ?_
      exact absurd (h hne (not_not.mp halign)).1 (Nat.not_le_of_lt hshort)
    next hroom =>
      simp only [hne, not_not.mp halign, Nat.le_of_not_lt hroom, ne_eq, not_false_eq_true,
        true_and, forall_const, bind_assoc, ok_bind, staysInside_refuseIf_bind,
        Bool.not_eq_false, parseParts_staysInside]

/-- The processed data of a file. -/
theorem decodesSafely_image : DecodesSafely .little 0 (shortFile.image .little) :=
  (decodesSafely_iff .little (by decide) _).mpr (by decide)

/-- Eight bytes have no room for a trailer. -/
theorem not_decodesSafely_short : ¬DecodesSafely .little 0 (zeros 8) := by
  intro h
  have hinside := h.inside
  revert hinside
  unfold StaysInside
  decide

end Kcov.SystemMode
