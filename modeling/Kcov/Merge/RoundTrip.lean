import Kcov.Merge.Metadata

/-! The round trip of a metadata file: the image that `marshalFile` builds, and what `parseOne` reads
from it. -/

namespace Kcov

open Bytes

/-! ### Entries and words -/

@[simp] theorem LineEntry.length_encode (e : Endian) (p : LineEntry) :
    (p.encode e).length = sizeofLineEntry := by
  simp [LineEntry.encode, sizeofLineEntry]

theorem LineEntry.decode_encode (e : Endian) (p : LineEntry) :
    LineEntry.decode e (p.encode e) = p := by
  have h4 := fun x : U32 => @ofNat_mod_pow 32 4 rfl x
  have hlast := fun v => field_encode e 4 v []
  simp only [List.append_nil] at hlast
  simp only [LineEntry.decode, LineEntry.encode, List.append_assoc, field_skip, field_encode, hlast,
    h4, Nat.reduceLeDiff, Nat.reduceSub, le_refl]

@[simp] theorem FileData.length_encode (e : Endian) (fd : FileData) :
    (fd.encode e).length = offsetofEntries := by
  simp [FileData.encode, offsetofEntries]

theorem FileData.decode_encode (e : Endian) (fd : FileData) (rest : List Byte) :
    FileData.decode e (fd.encode e ++ rest) = fd := by
  have h4 := fun x : U32 => @ofNat_mod_pow 32 4 rfl x
  have h8 := fun x : U64 => @ofNat_mod_pow 64 8 rfl x
  simp only [FileData.decode, FileData.encode, List.append_assoc, field_skip, field_encode, h4, h8,
    Nat.reduceLeDiff, Nat.reduceSub, le_refl]

def wordBytes (e : Endian) (word : U64) : List Byte := e.encode 8 word.toNat

@[simp] theorem length_wordBytes (e : Endian) (word : U64) : (wordBytes e word).length = 8 :=
  e.length_encode 8 _

theorem decode_wordBytes (e : Endian) (word : U64) :
    BitVec.ofNat 64 (e.decode (wordBytes e word)) = word := by
  rw [wordBytes, e.decode_encode]
  exact @ofNat_mod_pow 64 8 rfl word

/-- The address table of the lines. -/
def tableOf (lines : List (U32 × List U64)) : List U64 := lines.flatMap (·.2)

/-- The entries of the lines, behind `start` words of other lines. -/
def lineEntries : U32 → List (U32 × List U64) → List LineEntry
  | _, [] => []
  | start, (line, words) :: lines =>
    { line, addressStart := start, nAddresses := BitVec.ofNat 32 words.length } ::
      lineEntries (start + BitVec.ofNat 32 words.length) lines

section Tables

variable {lines : List (U32 × List U64)}

@[simp] theorem length_lineEntries (start : U32) (lines : List (U32 × List U64)) :
    (lineEntries start lines).length = lines.length := by
  induction lines generalizing start with
  | nil => rfl
  | cons l lines ih => rw [lineEntries, List.length_cons, ih, List.length_cons]

theorem length_tableOf (lines : List (U32 × List U64)) :
    (tableOf lines).length = (lines.map (·.2.length)).sum := List.length_flatMap

@[simp] theorem length_flatMap_lineEntries (e : Endian) (start : U32)
    (lines : List (U32 × List U64)) :
    ((lineEntries start lines).flatMap (LineEntry.encode e)).length =
      sizeofLineEntry * lines.length := by
  rw [length_flatMap_of_length (LineEntry.length_encode e), length_lineEntries]

@[simp] theorem length_flatMap_wordBytes (e : Endian) (words : List U64) :
    (words.flatMap (wordBytes e)).length = 8 * words.length :=
  length_flatMap_of_length (length_wordBytes e) words

theorem getElem_lineEntries (start : U32) {i : Nat} (hi : i < lines.length) :
    (lineEntries start lines)[i]? = some
      { line := lines[i].1
        addressStart := start + BitVec.ofNat 32 (tableOf (lines.take i)).length
        nAddresses := BitVec.ofNat 32 lines[i].2.length } := by
  induction lines generalizing start i with
  | nil => simp at hi
  | cons l lines ih =>
    cases i with
    | zero => simp [lineEntries, tableOf]
    | succ i =>
      rw [lineEntries, List.getElem?_cons_succ, ih _ (by simpa using hi)]
      simp [tableOf, BitVec.ofNat_add, BitVec.add_assoc]

theorem tableOf_split {i : Nat} (hi : i < lines.length) : tableOf lines =
    tableOf (lines.take i) ++ (lines[i].2 ++ tableOf (lines.drop (i + 1))) := by
  rw [tableOf, tableOf, tableOf, ← List.flatMap_cons, ← List.flatMap_append,
    List.getElem_cons_drop, List.take_append_drop]

theorem getElem_tableOf {i j : Nat} (hi : i < lines.length) (hj : j < lines[i].2.length) :
    (tableOf lines)[(tableOf (lines.take i)).length + j]? = some lines[i].2[j] := by
  rw [tableOf_split hi, List.getElem?_append_right (by omega), Nat.add_sub_cancel_left,
    List.getElem?_append_left hj, List.getElem?_eq_getElem hj]

theorem length_take_tableOf {i : Nat} (hi : i < lines.length) :
    (tableOf (lines.take i)).length + lines[i].2.length ≤ (tableOf lines).length := by
  rw [tableOf_split hi, List.length_append, List.length_append]
  omega

end Tables

/-! ### The image of a file -/

/-- The parts of a metadata file, in order. -/
def imageOf (e : Endian) (header : FileData) (lines : List (U32 × List U64)) (filename : Text) :
    List Byte :=
  header.encode e ++ ((lineEntries 0 lines).flatMap (LineEntry.encode e) ++
    (zeros (tableStart lines.length - (offsetofEntries + sizeofLineEntry * lines.length)) ++
      ((tableOf lines).flatMap (wordBytes e) ++
        (filename ++ zeros (sizeofFileData + sizeofLineEntry * lines.length + 9 -
          tableStart lines.length)))))

/-- The size of the block that `marshalFile` allocates. -/
def imageSize (lines : List (U32 × List U64)) (filename : Text) : Nat :=
  sizeofFileData + sizeofLineEntry * lines.length + 8 * (tableOf lines).length +
    filename.length + 9

theorem tableStart_bounds (n : Nat) : offsetofEntries + sizeofLineEntry * n ≤ tableStart n ∧
    tableStart n < offsetofEntries + sizeofLineEntry * n + 8 := by
  rw [tableStart]
  split <;> omega

/-- The header of a file. -/
def headerOf (md : MetadataSetup) (filename : Text) (file : MergeFile) : FileData :=
  let lines := file.inOrder md filename
  { magic := mergeMagic
    version := mergeVersion
    size := BitVec.ofNat 32 (imageSize lines filename)
    checksum := file.checksum
    timestamp := md.timestamp filename
    nEntries := BitVec.ofNat 32 lines.length
    addressTableOffset := BitVec.ofNat 32 (tableStart lines.length)
    fileNameOffset := BitVec.ofNat 32 (tableStart lines.length + 8 * (tableOf lines).length) }

section Writing

variable {front rest : List Byte} {table p : Nat} {t : U32}

theorem toNat_add_ofNat {t : U32} {n : Nat} (h : t.toNat + n < 2 ^ 32) :
    (t + BitVec.ofNat 32 n).toNat = t.toNat + n := by
  rw [BitVec.toNat_add, BitVec.toNat_ofNat]
  omega

/-- The words fill the table from where it ends. -/
theorem writeWords_zeros (words : List U64) (hfront : front.length = table + 8 * t.toNat)
    (hfit : t.toNat + words.length < 2 ^ 32) :
    writeWords table words t (front ++ (zeros (8 * words.length) ++ rest)) =
      some (front ++ (words.flatMap (wordBytes .big) ++ rest),
        t + BitVec.ofNat 32 words.length) := by
  induction words generalizing front t with
  | nil => simp [writeWords]
  | cons word words ih =>
    rw [List.length_cons] at hfit ⊢
    have hnext : (t + 1).toNat = t.toNat + 1 := @toNat_add_ofNat t 1 (by omega)
    have hzeros : zeros (8 * (words.length + 1)) = zeros 8 ++ zeros (8 * words.length) := by
      rw [List.replicate_append_replicate]
      congr 1
      omega
    have hstep := @write_append front (zeros 8) (wordBytes .big word)
      (zeros (8 * words.length) ++ rest) _ hfront.symm (by simp)
    have hrest := @ih (front ++ wordBytes .big word) (t + 1)
      (by rw [List.length_append, length_wordBytes, hnext]; omega) (by omega)
    rw [writeWords, hzeros, List.append_assoc, ← wordBytes, hstep, Option.bind_eq_bind,
      Option.bind_some, ← List.append_assoc front, hrest, List.append_assoc, List.flatMap_cons,
      List.append_assoc, BitVec.add_assoc, Nat.add_comm words.length 1, BitVec.ofNat_add]
    rfl

/-- The loop fills the entries and the table, each from where it ends. -/
theorem writeLines_zeros (lines : List (U32 × List U64)) {mid : List Byte}
    (hp : p = front.length)
    (hmid : front.length + sizeofLineEntry * lines.length + mid.length = table + 8 * t.toNat)
    (hfit : t.toNat + (tableOf lines).length < 2 ^ 32) :
    writeLines table lines p t (front ++ (zeros (sizeofLineEntry * lines.length) ++
        (mid ++ (zeros (8 * (tableOf lines).length) ++ rest)))) =
      some (front ++ ((lineEntries t lines).flatMap (LineEntry.encode .big) ++
        (mid ++ ((tableOf lines).flatMap (wordBytes .big) ++ rest))),
        t + BitVec.ofNat 32 (tableOf lines).length) := by
  induction lines generalizing front mid p t with
  | nil => simp [writeLines, lineEntries, tableOf]
  | cons l lines ih =>
    obtain ⟨line, words⟩ := l
    have htable : tableOf ((line, words) :: lines) = words ++ tableOf lines := rfl
    rw [htable, List.length_append] at hfit ⊢
    rw [List.length_cons] at hmid ⊢
    have hsize : sizeofLineEntry * (lines.length + 1) =
        sizeofLineEntry + sizeofLineEntry * lines.length := by ring
    have hnext : (t + BitVec.ofNat 32 words.length).toNat = t.toNat + words.length :=
      toNat_add_ofNat (by omega)
    have hentries : zeros (sizeofLineEntry * (lines.length + 1)) =
        zeros sizeofLineEntry ++ zeros (sizeofLineEntry * lines.length) := by
      rw [List.replicate_append_replicate, hsize]
    have hwords : zeros (8 * (words.length + (tableOf lines).length)) =
        zeros (8 * words.length) ++ zeros (8 * (tableOf lines).length) := by
      rw [List.replicate_append_replicate, Nat.mul_add]
    let entry : LineEntry :=
      { line, addressStart := t, nAddresses := BitVec.ofNat 32 words.length }
    have hentry := @write_append front (zeros sizeofLineEntry) (entry.encode .big)
      (zeros (sizeofLineEntry * lines.length) ++
        (mid ++ (zeros (8 * words.length) ++ (zeros (8 * (tableOf lines).length) ++ rest)))) p hp
      (by simp)
    have htbl := @writeWords_zeros (front ++ (entry.encode .big ++
        (zeros (sizeofLineEntry * lines.length) ++ mid)))
      (zeros (8 * (tableOf lines).length) ++ rest) table t words
      (by simp only [List.length_append, LineEntry.length_encode, List.length_replicate]; omega)
      (by omega)
    have hlines := @ih (front ++ entry.encode .big) (p + sizeofLineEntry)
      (t + BitVec.ofNat 32 words.length) (mid ++ words.flatMap (wordBytes .big))
      (by rw [List.length_append, LineEntry.length_encode, hp])
      (by simp only [List.length_append, LineEntry.length_encode, length_flatMap_wordBytes]; omega)
      (by omega)
    simp only [List.append_assoc] at htbl hlines
    rw [writeLines, hentries, hwords]
    simp only [List.append_assoc, Option.bind_eq_bind]
    rw [hentry, Option.bind_some, htbl, Option.bind_some, hlines]
    simp only [lineEntries, List.flatMap_cons, List.flatMap_append, List.append_assoc,
      BitVec.ofNat_add, BitVec.add_assoc]
    rfl

/-- The zeroed block, cut into the parts of the image. -/
theorem zeros_imageSize (lines : List (U32 × List U64)) (filename : Text) :
    zeros (imageSize lines filename) = zeros offsetofEntries ++
      (zeros (sizeofLineEntry * lines.length) ++
        (zeros (tableStart lines.length - (offsetofEntries + sizeofLineEntry * lines.length)) ++
          (zeros (8 * (tableOf lines).length) ++ zeros (filename.length +
            (sizeofFileData + sizeofLineEntry * lines.length + 9 - tableStart lines.length))))) := by
  obtain ⟨hstart, hstart'⟩ := tableStart_bounds lines.length
  simp only [List.replicate_append_replicate, imageSize]
  congr 1
  simp only [sizeofFileData, offsetofEntries] at hstart hstart' ⊢
  omega

/-- The header without the offsets, which are stored last. -/
def FileData.lead (e : Endian) (fd : FileData) : List Byte :=
  e.encode 4 fd.magic.toNat ++ e.encode 4 fd.version.toNat ++ e.encode 4 fd.size.toNat ++
    e.encode 4 fd.checksum.toNat ++ e.encode 8 fd.timestamp.toNat ++ e.encode 4 fd.nEntries.toNat

theorem FileData.length_lead (e : Endian) (fd : FileData) : (fd.lead e).length = 28 := by
  simp [FileData.lead]

theorem FileData.encode_eq_lead (e : Endian) (fd : FileData) : fd.encode e = fd.lead e ++
    (e.encode 4 fd.addressTableOffset.toNat ++ e.encode 4 fd.fileNameOffset.toNat) := by
  rw [FileData.encode, FileData.lead, List.append_assoc]

/-- The last writes of `marshalFile`: the offset of the address table, the name, and the offset of
the name. -/
theorem write_offsets (header : FileData) {body : List Byte} {filename : Text} {start name pad : Nat}
    (hbody : name = offsetofEntries + body.length) (hstart : start < 2 ^ 32) (hlt : name < 2 ^ 32)
    (hname : 0 ∉ filename) (hpad : 0 < pad) :
    (do
      let out ← write (header.encode .big ++ (body ++ zeros (filename.length + pad))) 28
        (Endian.big.encode 4 start)
      let out ← write out name (cString filename ++ [0])
      write out 32 (Endian.big.encode 4 name)) =
    some (FileData.encode .big { header with
        addressTableOffset := BitVec.ofNat 32 start
        fileNameOffset := BitVec.ofNat 32 name } ++ (body ++ (filename ++ zeros pad))) := by
  have hlead := header.length_lead .big
  rw [offsetofEntries] at hbody
  have w1 := @write_append (header.lead .big)
    (Endian.big.encode 4 header.addressTableOffset.toNat) (Endian.big.encode 4 start)
    (Endian.big.encode 4 header.fileNameOffset.toNat ++ (body ++ zeros (filename.length + pad)))
    28 hlead.symm (by simp)
  have w2 := @write_zeros_string (header.lead .big ++ (Endian.big.encode 4 start ++
      (Endian.big.encode 4 header.fileNameOffset.toNat ++ body))) filename name
    (filename.length + pad) 0 pad
    (by simp only [List.length_append, hlead, Endian.length_encode]; omega) (by omega) hpad
  have w3 := @write_append (header.lead .big ++ Endian.big.encode 4 start)
    (Endian.big.encode 4 header.fileNameOffset.toNat) (Endian.big.encode 4 name)
    (body ++ (filename ++ zeros pad)) 32 (by simp [hlead]) (by simp)
  simp only [List.append_assoc, List.replicate_zero, List.nil_append] at w1 w2 w3
  have hstart' : (BitVec.ofNat 32 start).toNat = start := by
    rw [BitVec.toNat_ofNat, Nat.mod_eq_of_lt hstart]
  have hname' : (BitVec.ofNat 32 name).toNat = name := by
    rw [BitVec.toNat_ofNat, Nat.mod_eq_of_lt hlt]
  simp only [FileData.encode_eq_lead, List.append_assoc, Option.bind_eq_bind, cString_eq_self hname,
    hstart', hname']
  rw [w1, Option.bind_some, w2, Option.bind_some, w3]
  rfl

/-- In a file whose size fits, the writes of `marshalFile` fill the block part by part. -/
theorem marshalFile_eq_image {md : MetadataSetup} {filename : Text} {file : MergeFile}
    (hname : 0 ∉ filename) (hsize : imageSize (file.inOrder md filename) filename < 2 ^ 32) :
    marshalFile md filename file =
      some (imageOf .big (headerOf md filename file) (file.inOrder md filename) filename) := by
  rw [marshalFile, headerOf]
  generalize file.inOrder md filename = lines at hsize ⊢
  obtain ⟨hstart, hstart'⟩ := tableStart_bounds lines.length
  have hsize' := hsize
  simp only [imageSize, sizeofFileData, offsetofEntries] at hsize' hstart hstart'
  have hN : (BitVec.ofNat 32 (tableOf lines).length).toNat = (tableOf lines).length := by
    rw [BitVec.toNat_ofNat]
    omega
  have htable : (BitVec.ofNat 32 (tableStart lines.length)).toNat = tableStart lines.length := by
    rw [BitVec.toNat_ofNat]
    omega
  have hblock : sizeofFileData + lines.length * sizeofLineEntry + (tableOf lines).length * 8 +
      filename.length + 1 + 8 = imageSize lines filename := by
    rw [imageSize]
    ring
  dsimp only
  rw [← length_tableOf, hN, hblock, htable, zeros_imageSize]
  generalize hheader : FileData.mk mergeMagic mergeVersion
    (BitVec.ofNat 32 (imageSize lines filename)) file.checksum (md.timestamp filename)
    (BitVec.ofNat 32 lines.length) 0 0 = header
  have w1 := fun rest => @write_append [] (zeros offsetofEntries) (header.encode .big) rest 0 rfl
    (by simp)
  have w2 := @writeLines_zeros (header.encode .big) (zeros (filename.length +
      (sizeofFileData + sizeofLineEntry * lines.length + 9 - tableStart lines.length)))
    (tableStart lines.length) offsetofEntries 0 lines
    (zeros (tableStart lines.length - (offsetofEntries + sizeofLineEntry * lines.length))) (by simp)
    (by simp [offsetofEntries]; omega) (by simp; omega)
  have w3 := @write_offsets header ((lineEntries 0 lines).flatMap (LineEntry.encode .big) ++
      (zeros (tableStart lines.length - (offsetofEntries + sizeofLineEntry * lines.length)) ++
        (tableOf lines).flatMap (wordBytes .big))) filename (tableStart lines.length)
    (tableStart lines.length + (tableOf lines).length * 8)
    (sizeofFileData + sizeofLineEntry * lines.length + 9 - tableStart lines.length)
    (by
      simp only [List.length_append, List.length_replicate, length_flatMap_lineEntries,
        length_flatMap_wordBytes, offsetofEntries]
      omega)
    (by omega) (by omega) hname (by simp only [sizeofFileData]; omega)
  simp only [List.nil_append] at w1
  simp only [List.append_assoc, Option.bind_eq_bind] at w3
  have hzero : 0 + BitVec.ofNat 32 (tableOf lines).length =
      BitVec.ofNat 32 (tableOf lines).length := BitVec.zero_add _
  rw [hzero] at w2
  simp only [Option.bind_eq_bind]
  rw [w1, Option.bind_some, w2, Option.bind_some]
  dsimp only
  rw [hN, w3, ← hheader, imageOf, Nat.mul_comm]

end Writing

/-! ### Reading the image -/

/-- The header locates the parts of the image. -/
structure FileData.Locates (header : FileData) (lines : List (U32 × List U64)) : Prop where
  magic : header.magic = mergeMagic
  version : header.version = mergeVersion
  nEntries : header.nEntries.toNat = lines.length
  table : header.addressTableOffset.toNat = tableStart lines.length
  name : header.fileNameOffset.toNat = tableStart lines.length + 8 * (tableOf lines).length

section Reading

variable {header : FileData} {lines : List (U32 × List U64)} {filename : Text}

theorem headerOf_locates {md : MetadataSetup} {file : MergeFile}
    (hsize : imageSize (file.inOrder md filename) filename < 2 ^ 32) :
    (headerOf md filename file).Locates (file.inOrder md filename) := by
  obtain ⟨hstart, hstart'⟩ := tableStart_bounds (file.inOrder md filename).length
  simp only [imageSize, sizeofFileData, offsetofEntries, sizeofLineEntry] at hsize hstart hstart'
  refine ⟨rfl, rfl, ?_, ?_, ?_⟩
  all_goals
    simp only [headerOf, BitVec.toNat_ofNat]
    omega

theorem length_imageOf (e : Endian) (header : FileData) (lines : List (U32 × List U64))
    (filename : Text) : (imageOf e header lines filename).length = imageSize lines filename := by
  obtain ⟨hstart, hstart'⟩ := tableStart_bounds lines.length
  simp only [imageOf, imageSize, List.length_append, FileData.length_encode,
    length_flatMap_lineEntries, length_flatMap_wordBytes, List.length_replicate]
  simp only [sizeofFileData, offsetofEntries] at hstart hstart' ⊢
  omega

theorem unMarshalEntry_append (e : Endian) (front : List Byte) (p : LineEntry) (rest : List Byte)
    (i : Nat) (hfront : front.length = offsetofEntries + sizeofLineEntry * i) :
    unMarshalEntry e (front ++ (p.encode .big ++ rest)) i = .ok (front ++ (p.encode e ++ rest)) := by
  rw [unMarshalEntry, read_append hfront.symm (by simp), inBounds_some, ok_bind,
    LineEntry.decode_encode, write_append hfront.symm (by simp), inBounds_some]

theorem unMarshalWord_append (e : Endian) {table : Nat} (front : List Byte) (word : U64)
    (rest : List Byte) (i : Nat) (hfront : front.length = table + 8 * i) :
    unMarshalWord e table (front ++ (wordBytes .big word ++ rest)) i =
      .ok (front ++ (wordBytes e word ++ rest)) := by
  have hvalue : Endian.big.decode (wordBytes .big word) = word.toNat := by
    rw [wordBytes, Endian.decode_encode]
    exact Nat.mod_eq_of_lt word.isLt
  rw [unMarshalWord, read_append hfront.symm (by simp), inBounds_some, ok_bind, hvalue,
    write_append hfront.symm (by simp), inBounds_some, wordBytes]

theorem field_take (host : Endian) {bs : List Byte} {off n k : Nat} (h : off + n ≤ k) :
    field host (bs.take k) off n = field host bs off n := by
  rw [field, field, List.drop_take, List.take_take, Nat.min_eq_left (by omega)]

theorem FileData.decode_take (e : Endian) (fd : List Byte) :
    FileData.decode e (fd.take offsetofEntries) = FileData.decode e fd := by
  simp (disch := decide) only [FileData.decode, offsetofEntries, field_take]

theorem FileData.decode_congr (e : Endian) {a b : List Byte}
    (h : ∀ j < offsetofEntries, a[j]? = b[j]?) : FileData.decode e a = FileData.decode e b := by
  have htake := @take_drop_congr a b 0 offsetofEntries fun j _ hj => h j (by omega)
  rw [List.drop_zero, List.drop_zero] at htake
  rw [← FileData.decode_take, htake, FileData.decode_take]

/-- A word behind the header leaves the header. -/
theorem decode_unMarshalWord {e : Endian} {table i : Nat} {fd out : List Byte}
    (htable : offsetofEntries ≤ table) (h : unMarshalWord e table fd i = .ok out) :
    FileData.decode e out = FileData.decode e fd := by
  obtain ⟨bytes, -, hwrite⟩ := bind_eq_ok.mp h
  refine FileData.decode_congr e fun j hj => ?_
  rw [getElem?_write (inBounds_eq_ok.mp hwrite), if_neg (by omega)]

/-- With the address table behind the header, the bound of its loop stays the same. -/
theorem unMarshalTable_eq {e : Endian} {table n : Nat} {fd : List Byte}
    (htable : offsetofEntries ≤ table) (hcount : wordCount e fd = n) (hn : n ≤ fd.length / 8) :
    unMarshalTable e table fd = (List.range n).foldlM (unMarshalWord e table) fd := by
  have hconst := @foldlM_whileBelow_const (wordCount e) (unMarshalWord e table) n fd
    (fun out => FileData.decode e out = FileData.decode e fd)
    (fun out hout => by rw [← hcount, wordCount, hout, wordCount])
    (fun data i out hdata hout => (decode_unMarshalWord htable hout).trans hdata) rfl
    (fd.length / 8 + 1)
  rw [unMarshalTable, hconst.1, Nat.min_eq_right (by omega)]

theorem unMarshalFile_image (e : Endian) (h : header.Locates lines) :
    unMarshalFile e (imageOf .big header lines filename) = .ok (imageOf e header lines filename) := by
  obtain ⟨hstart, -⟩ := tableStart_bounds lines.length
  have hheader := fun rest => @write_append [] (header.encode .big) (header.encode e) rest 0 rfl
    (by simp)
  have hentries := fun rest => foldlM_flatMap (LineEntry.length_encode e) (unMarshalEntry_append e)
    rest (lineEntries 0 lines) (FileData.length_encode e header)
  rw [length_lineEntries] at hentries
  have htable := fun rest => @foldlM_flatMap _ _ _ _ _ (length_wordBytes e) _
    (@unMarshalWord_append e (tableStart lines.length))
    (header.encode e ++ ((lineEntries 0 lines).flatMap (LineEntry.encode e) ++
      zeros (tableStart lines.length - (offsetofEntries + sizeofLineEntry * lines.length)))) rest
    (tableOf lines)
    (by
      simp only [List.length_append, FileData.length_encode, length_flatMap_lineEntries,
        List.length_replicate]
      omega)
  simp only [List.nil_append] at hheader
  simp only [List.append_assoc] at htable
  rw [unMarshalFile, imageOf, FileData.decode_encode, hheader, inBounds_some, ok_bind,
    refuseIf_neg (by simp [h.magic]), ok_bind, refuseIf_neg (by simp [h.version]), ok_bind, h.nEntries, hentries, ok_bind,
    unMarshalTable_eq (n := (tableOf lines).length), h.table, htable, imageOf]
  · rw [h.table]
    omega
  · have hname := header.fileNameOffset.isLt
    rw [wordCount, FileData.decode_encode, BitVec.toNat_sub, h.table]
    rw [h.name] at hname ⊢
    omega
  · simp only [List.length_append, length_flatMap_wordBytes]
    omega

theorem fileNameIn_image (e : Endian) (h : header.Locates lines) (hname : 0 ∉ filename) :
    fileNameIn e (imageOf e header lines filename) = .ok filename := by
  obtain ⟨hstart, hstart'⟩ := tableStart_bounds lines.length
  have hread := @cStringAt_append (header.encode e ++
      ((lineEntries 0 lines).flatMap (LineEntry.encode e) ++
        (zeros (tableStart lines.length - (offsetofEntries + sizeofLineEntry * lines.length)) ++
          (tableOf lines).flatMap (wordBytes e)))) filename [] header.fileNameOffset.toNat
    (sizeofFileData + sizeofLineEntry * lines.length + 9 - tableStart lines.length)
    (by
      rw [h.name]
      simp only [List.length_append, FileData.length_encode, length_flatMap_lineEntries,
        length_flatMap_wordBytes, List.length_replicate]
      omega)
    hname (by simp only [sizeofFileData, offsetofEntries] at hstart' ⊢; omega)
  simp only [List.append_assoc, List.append_nil] at hread
  rw [fileNameIn, imageOf, FileData.decode_encode, hread, inBounds_some]

theorem wordAt_image (e : Endian) (h : header.Locates lines) {i : Nat}
    (hi : i < (tableOf lines).length) :
    wordAt e (imageOf e header lines filename) (BitVec.ofNat 32 i) = .ok (tableOf lines)[i] := by
  obtain ⟨hstart, -⟩ := tableStart_bounds lines.length
  have hlt := header.fileNameOffset.isLt
  rw [h.name] at hlt
  have hindex : (BitVec.ofNat 32 i).toNat = i := by
    rw [BitVec.toNat_ofNat]
    omega
  have hread := @read_flatMap _ _ _ (length_wordBytes e) (header.encode e ++
      ((lineEntries 0 lines).flatMap (LineEntry.encode e) ++
        zeros (tableStart lines.length - (offsetofEntries + sizeofLineEntry * lines.length))))
    (filename ++ zeros (sizeofFileData + sizeofLineEntry * lines.length + 9 -
      tableStart lines.length)) (tableStart lines.length + 8 * i) i (tableOf lines)
    (by
      simp only [List.length_append, FileData.length_encode, length_flatMap_lineEntries,
        List.length_replicate]
      omega)
    hi
  simp only [List.append_assoc] at hread
  rw [wordAt, imageOf, FileData.decode_encode, h.table, hindex, hread, inBounds_some, ok_bind,
    decode_wordBytes]
  rfl

theorem lineAt_image (e : Endian) (h : header.Locates lines) {i : Nat} (hi : i < lines.length) :
    lineAt e (imageOf e header lines filename) i = .ok lines[i] := by
  have hlt := header.fileNameOffset.isLt
  rw [h.name] at hlt
  have hfit := length_take_tableOf hi
  have hread := fun rest => @read_flatMap _ _ _ (LineEntry.length_encode e) (header.encode e) rest
    (offsetofEntries + sizeofLineEntry * i) i (lineEntries 0 lines)
    (by rw [FileData.length_encode]) (by rw [length_lineEntries]; exact hi)
  have hentry := getElem_lineEntries 0 hi
  rw [List.getElem?_eq_getElem (by rw [length_lineEntries]; exact hi), Option.some.injEq] at hentry
  have hcount : (BitVec.ofNat 32 lines[i].2.length).toNat = lines[i].2.length := by
    rw [BitVec.toNat_ofNat]
    omega
  have hwords : (List.range lines[i].2.length).mapM (fun ia =>
      wordAt e (imageOf e header lines filename)
        (0 + BitVec.ofNat 32 (tableOf (lines.take i)).length + BitVec.ofNat 32 ia)) =
      .ok lines[i].2 := by
    apply mapM_range
    intro j hj
    have hindex : 0 + BitVec.ofNat 32 (tableOf (lines.take i)).length + BitVec.ofNat 32 j =
        BitVec.ofNat 32 ((tableOf (lines.take i)).length + j) := by
      rw [BitVec.ofNat_add]
      exact congrArg (· + _) (BitVec.zero_add _)
    have hget := getElem_tableOf hi hj
    rw [List.getElem?_eq_getElem (by omega), Option.some.injEq] at hget
    rw [hindex, wordAt_image e h (by omega), hget]
  rw [lineAt]
  nth_rewrite 1 [imageOf]
  rw [hread, inBounds_some, ok_bind, LineEntry.decode_encode, hentry]
  dsimp only
  rw [hcount, hwords, ok_bind]
  rfl

theorem entriesIn_image (e : Endian) (h : header.Locates lines) :
    entriesIn e (imageOf e header lines filename) = .ok lines := by
  have hheader : FileData.decode e (imageOf e header lines filename) = header :=
    FileData.decode_encode e header _
  rw [entriesIn, hheader, h.nEntries]
  exact mapM_range fun i hi => lineAt_image e h hi

/-! ### Bytes behind the data -/

section Longer

variable {e : Endian} {data out : List Byte}

theorem rewrites_unMarshalEntry (e : Endian) :
    RewritesInPlace offsetofEntries sizeofLineEntry
      (fun bs => (LineEntry.decode .big bs).encode e) (unMarshalEntry e) :=
  rewritesInPlace fun bs => LineEntry.length_encode e (LineEntry.decode .big bs)

theorem rewrites_unMarshalWord (e : Endian) (table : Nat) :
    RewritesInPlace table 8 (fun bs => e.encode 8 (Endian.big.decode bs)) (unMarshalWord e table) :=
  rewritesInPlace fun bs => e.length_encode 8 (Endian.big.decode bs)

theorem FileData.decode_append (h : offsetofEntries ≤ data.length) (rest : List Byte) :
    FileData.decode e (data ++ rest) = FileData.decode e data :=
  FileData.decode_congr e fun _ hj => List.getElem?_append_left (by omega)

theorem unMarshalEntry_longer {i : Nat} (h : unMarshalEntry e data i = .ok out)
    (rest : List Byte) : unMarshalEntry e (data ++ rest) i = .ok (out ++ rest) := by
  obtain ⟨bytes, hread, hwrite⟩ := bind_eq_ok.mp h
  rw [inBounds_eq_ok] at hread hwrite
  rw [unMarshalEntry, read_longer hread, inBounds_some, ok_bind, write_longer hwrite, inBounds_some]

theorem unMarshalWord_longer {table i : Nat} (h : unMarshalWord e table data i = .ok out)
    (rest : List Byte) : unMarshalWord e table (data ++ rest) i = .ok (out ++ rest) := by
  obtain ⟨bytes, hread, hwrite⟩ := bind_eq_ok.mp h
  rw [inBounds_eq_ok] at hread hwrite
  rw [unMarshalWord, read_longer hread, inBounds_some, ok_bind, write_longer hwrite, inBounds_some]

/-- The table is swapped exactly if the words between the final offsets are inside. -/
theorem unMarshalTable_eq_ite (table : Nat) : unMarshalTable e table data =
    if 0 < wordCount e (skipped (wordCount e) (unMarshalWord e table) data (data.length / 8 + 1)) →
      table + 8 * wordCount e (skipped (wordCount e) (unMarshalWord e table) data
        (data.length / 8 + 1)) ≤ data.length
    then .ok (skipped (wordCount e) (unMarshalWord e table) data (data.length / 8 + 1))
    else .error .outOfBounds :=
  foldlM_whileBelow_all (rewrites_unMarshalWord e table) (by omega) (by omega) (by omega)

theorem unMarshalTable_longer {table : Nat} (hlen : offsetofEntries ≤ data.length)
    (h : unMarshalTable e table data = .ok out) (rest : List Byte) :
    unMarshalTable e table (data ++ rest) = .ok (out ++ rest) ∧ offsetofEntries ≤ out.length := by
  have hstep : ∀ data i out, offsetofEntries ≤ data.length →
      whileBelow (wordCount e) (unMarshalWord e table) data i = .ok out →
      whileBelow (wordCount e) (unMarshalWord e table) (data ++ rest) i = .ok (out ++ rest) ∧
        offsetofEntries ≤ out.length := by
    intro data i out hdata hout
    have hcount : wordCount e (data ++ rest) = wordCount e data := by
      rw [wordCount, FileData.decode_append hdata, wordCount]
    rw [whileBelow] at hout
    rw [whileBelow, hcount]
    split at hout
    next hi =>
      rw [if_pos hi]
      obtain ⟨bytes, -, hwrite⟩ := bind_eq_ok.mp hout
      rw [inBounds_eq_ok] at hwrite
      exact ⟨unMarshalWord_longer hout rest, hdata.trans (length_write hwrite).ge⟩
    next hi =>
      rw [if_neg hi]
      cases hout
      exact ⟨rfl, hdata⟩
  obtain ⟨hlonger, hout⟩ := foldlM_longer hstep hlen h
  refine ⟨foldlM_whileBelow_done hlonger ?_ (by rw [List.length_append]; omega), hout⟩
  -- the words below the bound are inside the data, so that all of them have been swapped
  rw [wordCount, FileData.decode_append hout, ← wordCount]
  rw [unMarshalTable_eq_ite] at h
  split at h
  next hinside =>
    cases h
    omega
  next => cases h

/-- What is swapped inside the data is swapped in the same way with more bytes behind them. -/
theorem unMarshalFile_longer (h : unMarshalFile e data = .ok out) (rest : List Byte) :
    unMarshalFile e (data ++ rest) = .ok (out ++ rest) ∧ offsetofEntries ≤ out.length := by
  obtain ⟨fd, hfd, h⟩ := bind_eq_ok.mp h
  obtain ⟨u, hmagic, h⟩ := bind_eq_ok.mp h
  obtain ⟨u', hversion, h⟩ := bind_eq_ok.mp h
  obtain ⟨fd', hentries, h⟩ := bind_eq_ok.mp h
  rw [inBounds_eq_ok] at hfd
  have hlen := (write_eq_some.mp hfd).1
  rw [FileData.length_encode, Nat.zero_add] at hlen
  obtain ⟨hentries', hlen'⟩ := @foldlM_longer (fun data => offsetofEntries ≤ data.length) rest
    (unMarshalEntry e) (fun data i out hdata hout => ⟨unMarshalEntry_longer hout rest, by
      obtain ⟨bytes, -, hwrite⟩ := bind_eq_ok.mp hout
      rw [inBounds_eq_ok] at hwrite
      exact hdata.trans (length_write hwrite).ge⟩) _ fd fd'
    (hlen.trans (length_write hfd).ge) hentries
  obtain ⟨htable, hout⟩ := unMarshalTable_longer hlen' h rest
  refine ⟨?_, hout⟩
  rw [unMarshalFile, FileData.decode_append hlen, write_longer hfd, inBounds_some, ok_bind, hmagic,
    ok_bind, hversion, ok_bind, hentries', ok_bind, htable]

/-- The header alone decides whether a file is refused. -/
theorem unMarshalFile_longer_rejected (h : unMarshalFile e data = .error .rejected)
    (hlen : offsetofEntries ≤ data.length) (rest : List Byte) :
    unMarshalFile e (data ++ rest) = .error .rejected := by
  have hfd := (@write_eq_some data ((FileData.decode .big data).encode e) _ 0).mpr
    ⟨by rw [FileData.length_encode]; omega, rfl⟩
  rw [unMarshalFile, hfd, inBounds_some, ok_bind] at h
  rw [unMarshalFile, FileData.decode_append hlen, write_longer hfd, inBounds_some, ok_bind]
  by_cases hmagic : (FileData.decode .big data).magic ≠ mergeMagic
  · rw [refuseIf_pos hmagic, error_bind]
  · rw [refuseIf_neg hmagic, ok_bind] at h ⊢
    by_cases hversion : (FileData.decode .big data).version ≠ mergeVersion
    · rw [refuseIf_pos hversion, error_bind]
    · -- the loops end or are out of bounds
      rw [refuseIf_neg hversion, ok_bind, foldlM_inPlace (rewrites_unMarshalEntry e) (by decide)] at h
      split at h
      · rw [ok_bind, unMarshalTable_eq_ite] at h
        split at h <;> cases h
      · cases h

theorem fileNameIn_longer {name : Text} (hlen : offsetofEntries ≤ data.length)
    (h : fileNameIn e data = .ok name) (rest : List Byte) :
    fileNameIn e (data ++ rest) = .ok name := by
  rw [fileNameIn, inBounds_eq_ok] at h
  rw [fileNameIn, FileData.decode_append hlen, cStringAt_longer h, inBounds_some]

theorem entriesIn_longer {entries : List (U32 × List U64)} (hlen : offsetofEntries ≤ data.length)
    (h : entriesIn e data = .ok entries) (rest : List Byte) :
    entriesIn e (data ++ rest) = .ok entries := by
  have hword : ∀ i w, wordAt e data i = .ok w → wordAt e (data ++ rest) i = .ok w := by
    intro i w hw
    obtain ⟨bytes, hread, hw⟩ := bind_eq_ok.mp hw
    rw [inBounds_eq_ok] at hread
    rw [wordAt, FileData.decode_append hlen, read_longer hread, inBounds_some, ok_bind]
    exact hw
  rw [entriesIn, FileData.decode_append hlen]
  refine mapM_of_ok (fun i line hline => ?_) h
  obtain ⟨bytes, hread, hline⟩ := bind_eq_ok.mp hline
  obtain ⟨words, hwords, hline⟩ := bind_eq_ok.mp hline
  rw [inBounds_eq_ok] at hread
  rw [lineAt, read_longer hread, inBounds_some, ok_bind]
  dsimp only
  rw [mapM_of_ok (fun ia => hword _) hwords, ok_bind]
  exact hline

end Longer

/-! ### Records -/

/-- The record that stands in the bytes, when all of it lies inside them. -/
def readRecord (e : Endian) (data : List Byte) : Except Stop Record := do
  let fd ← unMarshalFile e data
  let fileName ← fileNameIn e fd
  let entries ← entriesIn e fd
  return { fileName, checksum := (FileData.decode e fd).checksum, entries }

/-- The record of a metadata file that `parseOne` does not skip. -/
def StoredFile.record (e : Endian) (file : StoredFile) : Option Record :=
  if stringIsInteger file.name ∧ sizeofFileData ≤ file.data.length then
    (readRecord e file.data).toOption
  else none

theorem readRecord_image (e : Endian) (h : header.Locates lines) (hname : 0 ∉ filename) :
    readRecord e (imageOf .big header lines filename) =
      .ok { fileName := filename, checksum := header.checksum, entries := lines } := by
  have hheader : FileData.decode e (imageOf e header lines filename) = header :=
    FileData.decode_encode e header _
  rw [readRecord, unMarshalFile_image e h, ok_bind, fileNameIn_image e h hname, ok_bind,
    entriesIn_image e h, ok_bind, hheader]
  rfl

theorem record_eq_some {e : Endian} {file : StoredFile} {r : Record} :
    file.record e = some r ↔ (stringIsInteger file.name = true ∧
      sizeofFileData ≤ file.data.length) ∧ readRecord e file.data = .ok r := by
  rw [StoredFile.record]
  split
  next h =>
    cases readRecord e file.data <;> simp [h, Except.toOption]
  next h => simp [h]

theorem readRecord_eq_ok {e : Endian} {data : List Byte} {r : Record} :
    readRecord e data = .ok r ↔ ∃ fd, unMarshalFile e data = .ok fd ∧
      fileNameIn e fd = .ok r.fileName ∧ entriesIn e fd = .ok r.entries ∧
      r.checksum = (FileData.decode e fd).checksum := by
  simp only [readRecord, bind_eq_ok]
  constructor
  · rintro ⟨fd, hfd, name, hname, entries, hentries, h⟩
    cases h
    exact ⟨fd, hfd, hname, hentries, rfl⟩
  · rintro ⟨fd, hfd, hname, hentries, hsum⟩
    refine ⟨fd, hfd, _, hname, _, hentries, ?_⟩
    rw [← hsum]
    rfl

theorem zero_notMem_fileName {e : Endian} {file : StoredFile} {r : Record}
    (h : file.record e = some r) : 0 ∉ r.fileName := by
  obtain ⟨fd, -, hname, -⟩ := readRecord_eq_ok.mp (record_eq_some.mp h).2
  rw [fileNameIn, inBounds_eq_ok, cStringAt_natCast] at hname
  split at hname
  · rw [← Option.some.inj hname]
    exact zero_notMem_cString _
  · cases hname

end Reading

namespace MergeParser

section Parsing

variable {e : Endian} {cfg : MergeSetup} {s : MergeParser} {file : StoredFile} {r : Record}

theorem parseFileData_of_ignores (h : s.ignores cfg r.fileName r.checksum = true) :
    s.parseFileData cfg r = some s := by
  simp only [ignores, Bool.or_eq_true, Bool.not_eq_true'] at h
  rw [parseFileData]
  rcases h with h | h
  · simp [h]
  · split
    · rfl
    · cases hfile : s.files (cfg.mangleSourcePath r.fileName) with
      | none => simp [hfile] at h
      | some f =>
        rw [hfile, Option.any_some, decide_eq_true_eq] at h
        exact if_pos h

theorem parseFileData_of_panics (hignores : s.ignores cfg r.fileName r.checksum = false)
    (h : s.panics cfg r.fileName = true) : s.parseFileData cfg r = none := by
  have hopen : s.openFile cfg (cfg.mangleSourcePath r.fileName) = none :=
    Option.isNone_iff_eq_none.mp h
  have hnew : s.files (cfg.mangleSourcePath r.fileName) = none := by
    cases hfile : s.files (cfg.mangleSourcePath r.fileName) with
    | none => rfl
    | some file =>
      rw [openFile, hfile] at hopen
      cases hopen
  simp only [ignores, Bool.or_eq_false_iff, Bool.not_eq_false'] at hignores
  rw [parseFileData]
  simp [hignores.1, hnew, hopen]

/-- What `parseOne` does inside the data, it does in the same way with more bytes behind them. -/
theorem parseBlock_longer {size : Nat} {data : List Byte} {t : Option MergeParser}
    (hlen : offsetofEntries ≤ data.length) (h : s.parseBlock e cfg size data = .ok t)
    (rest : List Byte) : s.parseBlock e cfg size (data ++ rest) = .ok t := by
  rw [parseBlock] at h ⊢
  split
  next hsize => rwa [if_pos hsize] at h
  next hsize =>
    rw [if_neg hsize] at h
    cases hfd : unMarshalFile e data with
    | error stop =>
      cases stop with
      | outOfBounds =>
        rw [hfd] at h
        cases h
      | rejected =>
        rw [hfd] at h
        rw [unMarshalFile_longer_rejected hfd hlen]
        exact h
    | ok fd =>
      obtain ⟨hlonger, hlen'⟩ := unMarshalFile_longer hfd rest
      rw [hfd] at h
      rw [hlonger]
      dsimp only at h ⊢
      obtain ⟨name, hname, h⟩ := bind_eq_ok.mp h
      rw [fileNameIn_longer hlen' hname, ok_bind, FileData.decode_append hlen']
      split at h
      next hignores => rw [if_pos hignores, h]
      next hignores =>
        rw [if_neg hignores]
        split at h
        next hpanics => rw [if_pos hpanics, h]
        next hpanics =>
          rw [if_neg hpanics]
          obtain ⟨entries, hentries, h⟩ := bind_eq_ok.mp h
          rw [entriesIn_longer hlen' hentries, ok_bind, h]

/-- `parseOne` feeds the record of a file to `parseFileData`. -/
theorem parseOne_of_record (h : file.record e = some r) :
    s.parseOne e cfg file = .ok (s.parseFileData cfg r) := by
  obtain ⟨⟨hname, hsize⟩, hread⟩ := record_eq_some.mp h
  obtain ⟨fd, hfd, hfileName, hentries, hsum⟩ := readRecord_eq_ok.mp hread
  have hlen : offsetofEntries ≤ sizeofFileData := by decide
  rw [parseOne, if_neg (by simp [hname]), readFileBlock]
  refine parseBlock_longer (hlen.trans hsize) ?_ _
  rw [parseBlock, if_neg (Nat.not_lt_of_le hsize), hfd]
  dsimp only
  rw [hfileName, ok_bind, ← hsum]
  split
  next hignores =>
    rw [parseFileData_of_ignores hignores]
    rfl
  next hignores =>
    split
    next hpanics =>
      rw [parseFileData_of_panics (Bool.eq_false_iff.mpr hignores) hpanics]
      rfl
    next =>
      rw [hentries]
      rfl

/-- A merge of metadata files is a merge of their records. -/
theorem parseStored_of_records {files : List StoredFile}
    (h : ∀ file ∈ files, (file.record e).isSome) :
    s.parseStored e cfg files =
      .ok ((files.filterMap (StoredFile.record e)).foldlM (parseFileData cfg) s) := by
  induction files generalizing s with
  | nil => rfl
  | cons file files ih =>
    obtain ⟨r, hr⟩ := Option.isSome_iff_exists.mp (h file List.mem_cons_self)
    rw [parseStored, parseOne_of_record hr, ok_bind, List.filterMap_cons_some hr,
      List.foldlM_cons]
    cases s.parseFileData cfg r with
    | none => rfl
    | some s => exact ih fun file hfile => h file (List.mem_cons_of_mem _ hfile)

end Parsing

end MergeParser

end Kcov
