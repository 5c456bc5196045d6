import Kcov.Lib.Memo
import Kcov.Lib.Percent
import Kcov.Reporter.Summary

/-! The summaries that the HTML writers of several programs leave in one output directory, and the
indexes that each of them makes of all of these, while others may be writing theirs. -/

namespace Kcov

open Bytes Reporter

namespace HtmlWriter

/-! ### The summary of one program -/

def summaryMagic : Nat := 0x456d696c

def summaryVersion : Nat := 2

/-- `sizeof(struct summaryStruct)`. -/
def summarySize : Nat := 276

/-- `strncpy` into a zeroed field of 256 bytes, of which the last one stays zero. -/
def shortName (name : Text) : Text := (cString name).take 255

def marshalSummary (summary : ExecutionSummary) (name : Text) : List Byte :=
  [summaryMagic, summaryVersion, summary.includeInTotals.toNat, summary.lines.toNat,
    summary.executedLines.toNat].flatMap (Endian.big.encode 4) ++
    (shortName name ++ List.replicate (256 - (shortName name).length) 0)

/-- The field of a `summaryStruct` with that number. -/
def summaryField (data : List Byte) (i : Nat) : Nat :=
  Endian.big.decode ((data.drop (4 * i)).take 4)

/-- `unMarshalSummary`, for the data that `read_file` returns: zeros come behind it. -/
def unMarshalSummary (data : List Byte) : Option (ExecutionSummary × Text) :=
  if data.length ≠ summarySize then none
  else if summaryField data 0 ≠ summaryMagic then none
  else if summaryField data 1 ≠ summaryVersion then none
  else some
    ({ lines := BitVec.ofNat 32 (summaryField data 3)
       executedLines := BitVec.ofNat 32 (summaryField data 4)
       includeInTotals := summaryField data 2 ≠ 0 }, cString (data.drop 20))

section Marshal

variable {summary : ExecutionSummary} {name : Text}

theorem length_shortName (name : Text) : (shortName name).length ≤ 255 := by
  rw [shortName, List.length_take]
  exact Nat.min_le_left _ _

theorem length_marshalSummary (summary : ExecutionSummary) (name : Text) :
    (marshalSummary summary name).length = summarySize := by
  have hshort := length_shortName name
  simp only [marshalSummary, List.flatMap_cons, List.flatMap_nil, List.length_append,
    Endian.length_encode, List.length_nil, List.length_replicate, summarySize]
  omega

/-- The fields of the structure come back. -/
theorem unMarshalSummary_marshalSummary (summary : ExecutionSummary) (name : Text) :
    unMarshalSummary (marshalSummary summary name) = some (summary, shortName name) := by
  obtain ⟨lines, executedLines, includeInTotals⟩ := summary
  have hfield : ∀ (a b c d e : Nat) (rest : List Byte),
      summaryField ([a, b, c, d, e].flatMap (Endian.big.encode 4) ++ rest) 0 = a % 2 ^ 32 ∧
      summaryField ([a, b, c, d, e].flatMap (Endian.big.encode 4) ++ rest) 1 = b % 2 ^ 32 ∧
      summaryField ([a, b, c, d, e].flatMap (Endian.big.encode 4) ++ rest) 2 = c % 2 ^ 32 ∧
      summaryField ([a, b, c, d, e].flatMap (Endian.big.encode 4) ++ rest) 3 = d % 2 ^ 32 ∧
      summaryField ([a, b, c, d, e].flatMap (Endian.big.encode 4) ++ rest) 4 = e % 2 ^ 32 := by
    intro a b c d e rest
    simp [summaryField, List.flatMap_cons, List.append_assoc, List.drop_append,
      Endian.decode_encode, List.drop_eq_nil_of_le]
  have hname : cString ((marshalSummary ⟨lines, executedLines, includeInTotals⟩ name).drop 20) =
      shortName name := by
    have hzero : (0 : Byte) ∉ shortName name := fun hmem =>
      zero_notMem_cString name (List.mem_of_mem_take hmem)
    have hpad : List.replicate (256 - (shortName name).length) (0 : Byte) =
        0 :: List.replicate (255 - (shortName name).length) 0 := by
      have hshort := length_shortName name
      rw [← List.replicate_succ]
      congr 1
      omega
    rw [marshalSummary, List.drop_left' (by simp), hpad, cString_append_zero hzero]
  obtain ⟨h₀, h₁, h₂, h₃, h₄⟩ := hfield summaryMagic summaryVersion includeInTotals.toNat
    lines.toNat executedLines.toNat
    (shortName name ++ List.replicate (256 - (shortName name).length) 0)
  rw [← marshalSummary.eq_1 ⟨lines, executedLines, includeInTotals⟩ name] at h₀ h₁ h₂ h₃ h₄
  rw [Nat.mod_eq_of_lt lines.isLt] at h₃
  rw [Nat.mod_eq_of_lt executedLines.isLt] at h₄
  rw [unMarshalSummary, if_neg (not_not_intro (length_marshalSummary _ _)),
    if_neg (by rw [h₀]; decide), if_neg (by rw [h₁]; decide), hname]
  simp only [h₂, h₃, h₄, BitVec.ofNat_toNat, BitVec.setWidth_eq]
  cases includeInTotals <;> rfl

/-- A summary of which only a part has been written is none. -/
theorem unMarshalSummary_take (count : Nat) :
    unMarshalSummary ((marshalSummary summary name).take count) =
      if summarySize ≤ count then some (summary, shortName name) else none := by
  split
  next hcount =>
    rw [List.take_of_length_le (by rwa [length_marshalSummary]), unMarshalSummary_marshalSummary]
  next hcount =>
    rw [unMarshalSummary, if_pos]
    rw [List.length_take, length_marshalSummary]
    omega

end Marshal

/-! ### The index of all programs -/

/-- What `writeGlobalIndex` finds in the index directory: a name, and whether it is a link. -/
structure Dirent where
  name : Text
  isLink : Bool
  deriving DecidableEq, Repr

/-- The `summary.db` in each directory. -/
abbrev SummaryFiles := Text → Option (List Byte)

/-- Some kcov has written the first bytes of its summary to its directory. -/
structure Saving where
  directory : Text
  summary : ExecutionSummary
  name : Text
  count : Nat
  deriving DecidableEq, Repr

def Saving.save (files : SummaryFiles) (w : Saving) : SummaryFiles :=
  Function.update files w.directory (some ((marshalSummary w.summary w.name).take w.count))

section Escape

-- `curl_easy_escape` of libcurl, which may return NULL
variable (curlEscape : Text → Option Text)

/-- `escape_url` -/
def escapeUrl (s : Text) : Text :=
  [slash].intercalate ((splitString slash s).map fun elem => (curlEscape elem).getD elem)

end Escape

/-- The bytes that are left as they are in a percent-encoded text. -/
def isUnreserved (b : Byte) : Bool :=
  (0x30 ≤ b && b ≤ 0x39) || (0x41 ≤ b && b ≤ 0x5a) || (0x61 ≤ b && b ≤ 0x7a) ||
    [0x2d, 0x2e, 0x5f, 0x7e].contains b

/-- What `getIndexHeader` is called with; the title is the name of the summary, too. -/
structure IndexEntry where
  linkName : Text
  titleName : Text
  lines : U32
  executedLines : U32
  deriving DecidableEq, Repr

namespace IndexEntry

/-- The `link` of the entry. -/
def link (curlEscape : Text → Option Text) (entry : IndexEntry) : Text :=
  escapeUrl curlEscape entry.linkName

end IndexEntry

structure Index where
  files : List IndexEntry
  mergedFiles : List IndexEntry
  totalCodeLines : U32
  totalExecutedLines : U32
  deriving DecidableEq, Repr

/-- What a process that makes indexes finds, and what it has found. -/
structure IndexProcess where
  files : SummaryFiles
  /-- The part of `statCache` that is about summaries: whether there was one in a directory. -/
  stats : Text → Option Bool

/-- The body of the loop of `writeGlobalIndex`. -/
def addToIndex (mergedName : Text) (p : IndexProcess) (out : Index) (de : Dirent) :
    Index × IndexProcess :=
  -- Skip human friendly names
  if de.isLink then (out, p)
  else
    -- `file_exists`
    let (found, stats) := Memo.lookup (fun directory => (p.files directory).isSome) p.stats de.name
    let p := { p with stats }
    if !found then (out, p)
    else
      match (p.files de.name).bind unMarshalSummary with
      | none => (out, p)
      | some (summary, name) =>
        let out :=
          if summary.includeInTotals then
            { out with
              totalCodeLines := out.totalCodeLines + summary.lines
              totalExecutedLines := out.totalExecutedLines + summary.executedLines }
          else out
        let datum : IndexEntry :=
          { linkName := de.name ++ ascii "/index.html"
            titleName := name
            lines := summary.lines
            executedLines := summary.executedLines }
        if name = mergedName then ({ out with mergedFiles := out.mergedFiles ++ [datum] }, p)
        else ({ out with files := out.files ++ [datum] }, p)

/-- A turn of the loop of `writeGlobalIndex`: what others write before it, and what it looks at. -/
abbrev Turn := List Saving × Dirent

/-- The loop of `writeGlobalIndex`. -/
def addAllToIndex (mergedName : Text) : IndexProcess → List Turn → Index → Index × IndexProcess
  | p, [], out => (out, p)
  | p, (saved, de) :: turns, out =>
    let (out, p) := addToIndex mergedName { p with files := saved.foldl Saving.save p.files } out de
    addAllToIndex mergedName p turns out

def writeGlobalIndex (mergedName : Text) (p : IndexProcess) (turns : List Turn) :
    Index × IndexProcess :=
  addAllToIndex mergedName p turns ⟨[], [], 0, 0⟩

/-- A process that finds what has been saved and has not looked at anything. -/
def IndexProcess.start (saved : List Saving) : IndexProcess where
  files := saved.foldl Saving.save fun _ => none
  stats := fun _ => none

/-- A process after it has made some indexes. -/
def IndexProcess.after (mergedName : Text) (p : IndexProcess) (calls : List (List Turn)) :
    IndexProcess :=
  calls.foldl (fun p turns => (writeGlobalIndex mergedName p turns).2) p

/-! ### What the index is meant to show -/

/-- The summary in a directory is the last one that was written there, if all of it was. -/
def latest (saved : List Saving) (directory : Text) : Option (ExecutionSummary × Text) :=
  (saved.reverse.find? fun w => w.directory = directory).bind fun w =>
    if summarySize ≤ w.count then some (w.summary, shortName w.name) else none

/-- What has been saved so far, and the directories that the process looked at before anything was
saved there. -/
structure Seen where
  saved : List Saving
  missed : List Text

def Seen.look (seen : Seen) (t : Turn) : Seen where
  saved := seen.saved ++ t.1
  missed :=
    if t.2.isLink || (seen.saved ++ t.1).any fun w => w.directory = t.2.name then seen.missed
    else t.2.name :: seen.missed

/-- The directories that are no links and have not been missed, and the summaries in them when the
loop comes to them. -/
def listed : Seen → List Turn → List (Text × ExecutionSummary × Text)
  | _, [] => []
  | seen, t :: turns =>
    (if t.2.isLink || (seen.look t).missed.contains t.2.name then []
      else (latest (seen.saved ++ t.1) t.2.name).toList.map fun x => (t.2.name, x)) ++
        listed (seen.look t) turns

/-- The summaries that count, and not those of merged reports. -/
def total (count : ExecutionSummary → U32) (l : List (Text × ExecutionSummary × Text)) : U32 :=
  BitVec.ofNat 32 ((l.filter fun x => x.2.1.includeInTotals).map fun x => (count x.2.1).toNat).sum

def entryOf (x : Text × ExecutionSummary × Text) : IndexEntry :=
  { linkName := x.1 ++ ascii "/index.html"
    titleName := x.2.2
    lines := x.2.1.lines
    executedLines := x.2.1.executedLines }

/-- An index with more summaries. -/
def Index.append (mergedName : Text) (out : Index) (l : List (Text × ExecutionSummary × Text)) :
    Index where
  files := out.files ++ (l.filter fun x => x.2.2 ≠ mergedName).map entryOf
  mergedFiles := out.mergedFiles ++ (l.filter fun x => x.2.2 = mergedName).map entryOf
  totalCodeLines := out.totalCodeLines + total ExecutionSummary.lines l
  totalExecutedLines := out.totalExecutedLines + total ExecutionSummary.executedLines l

section Listed

variable {mergedName : Text} {saved : List Saving} {seen : Seen} {p : IndexProcess} {out : Index}
  {t : Turn} {turns : List Turn}

theorem total_append (count : ExecutionSummary → U32)
    (l l' : List (Text × ExecutionSummary × Text)) :
    total count (l ++ l') = total count l + total count l' := by
  simp [total, List.filter_append, List.map_append, List.sum_append, BitVec.ofNat_add]

theorem Index.append_nil (out : Index) : out.append mergedName [] = out := by
  simp [append, total]

theorem Index.append_append (out : Index) (l l' : List (Text × ExecutionSummary × Text)) :
    (out.append mergedName l).append mergedName l' = out.append mergedName (l ++ l') := by
  simp only [append, List.filter_append, List.map_append, total_append, List.append_assoc,
    BitVec.add_assoc]

theorem foldl_save (saved : List Saving) (directory : Text) :
    saved.foldl Saving.save (fun _ => none) directory =
      (saved.reverse.find? fun w => w.directory = directory).map fun w =>
        (marshalSummary w.summary w.name).take w.count := by
  induction saved using List.reverseRecOn with
  | nil => rfl
  | append_singleton saved w ih =>
    rw [List.foldl_append, List.foldl_cons, List.foldl_nil, Saving.save, List.reverse_append,
      List.reverse_singleton, List.singleton_append, List.find?_cons]
    by_cases hw : w.directory = directory
    · rw [← hw, Function.update_self]
      simp
    · rw [Function.update_of_ne (Ne.symm hw), ih]
      simp [hw]

theorem bind_foldl_save (saved : List Saving) (directory : Text) :
    (saved.foldl Saving.save (fun _ => none) directory).bind unMarshalSummary =
      latest saved directory := by
  rw [foldl_save, latest]
  cases saved.reverse.find? fun w => w.directory = directory with
  | none => rfl
  | some w => exact unMarshalSummary_take w.count

theorem isSome_foldl_save (saved : List Saving) (directory : Text) :
    (saved.foldl Saving.save (fun _ => none) directory).isSome =
      saved.any fun w => w.directory = directory := by
  rw [foldl_save, Option.isSome_map, Bool.eq_iff_iff, List.find?_isSome]
  simp

/-- The process knows what has been seen. -/
structure Knows (p : IndexProcess) (seen : Seen) : Prop where
  files : p.files = seen.saved.foldl Saving.save fun _ => none
  missed : ∀ directory, p.stats directory = some false ↔ directory ∈ seen.missed
  found : ∀ directory, p.stats directory = some true → (p.files directory).isSome = true

theorem knows_start (saved : List Saving) : Knows (.start saved) ⟨saved, []⟩ :=
  { files := rfl
    missed := fun _ => by simp [IndexProcess.start]
    found := fun _ h => by cases h }

/-- What has been saved in the meantime does not change what is in the cache. -/
theorem Knows.save (h : Knows p seen) (more : List Saving) :
    Knows { p with files := more.foldl Saving.save p.files } ⟨seen.saved ++ more, seen.missed⟩ := by
  have hfiles : more.foldl Saving.save p.files =
      (seen.saved ++ more).foldl Saving.save fun _ => none := by
    rw [List.foldl_append, h.files]
  refine ⟨hfiles, h.missed, fun directory hstat => ?_⟩
  have hfound := h.found directory hstat
  rw [h.files, isSome_foldl_save] at hfound
  dsimp only
  rw [hfiles, isSome_foldl_save, List.any_append, hfound, Bool.true_or]

/-- An answer goes into the cache. -/
theorem Knows.answer {missed missed' : List Text} {name : Text} {found : Bool}
    (h : Knows p ⟨saved, missed⟩) (hfound : found = true → (p.files name).isSome = true)
    (hname : name ∈ missed' ↔ found = false)
    (hother : ∀ directory, directory ≠ name → (directory ∈ missed' ↔ directory ∈ missed)) :
    Knows { p with stats := Function.update p.stats name (some found) } ⟨saved, missed'⟩ := by
  refine ⟨h.files, fun directory => ?_, fun directory hstat => ?_⟩
  · dsimp only
    by_cases heq : directory = name
    · rw [heq, Function.update_self, Option.some.injEq, hname]
    · rw [Function.update_of_ne heq, h.missed, hother directory heq]
  · dsimp only at hstat ⊢
    by_cases heq : directory = name
    · rw [heq, Function.update_self, Option.some.injEq] at hstat
      rw [heq]
      exact hfound hstat
    · rw [Function.update_of_ne heq] at hstat
      exact h.found directory hstat

/-- What is added for a directory that is no link. -/
theorem addToIndex_eq {de : Dirent} {x : Option (ExecutionSummary × Text)} {found : Bool}
    {stats : Text → Option Bool} (hlink : de.isLink = false)
    (hx : (p.files de.name).bind unMarshalSummary = x)
    (hstats : Memo.lookup (fun directory => (p.files directory).isSome) p.stats de.name =
      (found, stats)) (out : Index) :
    addToIndex mergedName p out de =
      (if found then out.append mergedName (x.toList.map fun x => (de.name, x)) else out,
        { p with stats }) := by
  rw [addToIndex, hlink, hstats]
  cases found with
  | false => rfl
  | true =>
    simp only [hx, Bool.false_eq_true, if_false, Bool.not_true, if_true]
    cases x with
    | none => simp [Index.append_nil]
    | some x =>
      obtain ⟨summary, name⟩ := x
      by_cases hname : name = mergedName <;> cases hin : summary.includeInTotals <;>
        simp [Index.append, total, entryOf, hname, hin]

/-- A turn of the loop: the cache answers for a directory as it did first, and otherwise as it is. -/
theorem Knows.addToIndex (h : Knows p seen) (t : Turn) (out : Index) :
    ∃ p', Knows p' (seen.look t) ∧
      addToIndex mergedName { p with files := t.1.foldl Saving.save p.files } out t.2 =
        (out.append mergedName (if t.2.isLink || (seen.look t).missed.contains t.2.name then []
          else (latest (seen.saved ++ t.1) t.2.name).toList.map fun x => (t.2.name, x)), p') := by
  have hsave := h.save t.1
  generalize ({ p with files := t.1.foldl Saving.save p.files } : IndexProcess) = q at hsave ⊢
  have hlatest : (q.files t.2.name).bind unMarshalSummary =
      latest (seen.saved ++ t.1) t.2.name := by
    rw [hsave.files, bind_foldl_save]
  have hany : ((seen.saved ++ t.1).any fun w => w.directory = t.2.name) =
      (q.files t.2.name).isSome := by
    rw [hsave.files, isSome_foldl_save]
  cases hlink : t.2.isLink with
  | true =>
    refine ⟨q, ?_, ?_⟩
    · rw [Seen.look, hlink]
      exact hsave
    · rw [HtmlWriter.addToIndex, hlink, if_pos rfl, Bool.true_or, if_pos rfl, Index.append_nil]
  | false =>
    generalize hanswer : (q.stats t.2.name).getD (q.files t.2.name).isSome = found
    have hlookup := Memo.lookup_eq (fun directory => (q.files directory).isSome) q.stats t.2.name
    rw [hanswer] at hlookup
    have hfound : found = true → (q.files t.2.name).isSome = true := by
      rintro rfl
      cases hstat : q.stats t.2.name with
      | none => rwa [hstat] at hanswer
      | some b =>
        rw [hstat, Option.getD_some] at hanswer
        exact hsave.found _ (hstat.trans (congrArg some hanswer))
    have hold : t.2.name ∈ seen.missed → found = false := by
      intro hmem
      rw [← hanswer, (hsave.missed _).mpr hmem, Option.getD_some]
    have hmissed : t.2.name ∈ (seen.look t).missed ↔ found = false := by
      simp only [Seen.look, hlink, hany, Bool.false_or]
      cases hsome : (q.files t.2.name).isSome with
      | true =>
        refine ⟨hold, fun hfalse => (hsave.missed _).mp ?_⟩
        rw [hsome, hfalse] at hanswer
        cases hstat : q.stats t.2.name with
        | none => rw [hstat] at hanswer; cases hanswer
        | some b => rw [hstat, Option.getD_some] at hanswer; rw [hanswer]
      | false =>
        refine iff_of_true List.mem_cons_self ?_
        cases found with
        | false => rfl
        | true => exact absurd (hfound rfl) (by rw [hsome]; exact Bool.false_ne_true)
    refine ⟨_, ?_, (addToIndex_eq hlink hlatest hlookup out).trans (congrArg (·, _) ?_)⟩
    · refine hsave.answer hfound hmissed fun directory hname => ?_
      split
      · exact Iff.rfl
      · exact List.mem_cons.trans (or_iff_right hname)
    · cases found with
      | false =>
        have hmem : (seen.look t).missed.contains t.2.name = true :=
          List.contains_iff_mem.mpr (hmissed.mpr rfl)
        rw [hmem, Bool.or_true, if_pos rfl, Index.append_nil]
        rfl
      | true =>
        have hnot : (seen.look t).missed.contains t.2.name = false := by
          rw [Bool.eq_false_iff, ne_eq, List.contains_iff_mem]
          exact fun hmem => by cases hmissed.mp hmem
        rw [hnot, if_pos rfl, Bool.or_false, if_neg Bool.false_ne_true]

/-- The loop shows what is listed. -/
theorem Knows.addAllToIndex (h : Knows p seen) (turns : List Turn) (out : Index) :
    ∃ p', Knows p' (turns.foldl Seen.look seen) ∧
      addAllToIndex mergedName p turns out = (out.append mergedName (listed seen turns), p') := by
  induction turns generalizing p seen out with
  | nil => exact ⟨p, h, by rw [HtmlWriter.addAllToIndex, listed, Index.append_nil]⟩
  | cons t turns ih =>
    obtain ⟨q, hq, hadd⟩ := @Knows.addToIndex mergedName _ _ h t out
    obtain ⟨p', hp', hrest⟩ := ih hq (out.append mergedName _)
    refine ⟨p', hp', ?_⟩
    rw [HtmlWriter.addAllToIndex, hadd, listed, ← Index.append_append]
    exact hrest

theorem Knows.after (h : Knows p seen) (calls : List (List Turn)) :
    Knows (p.after mergedName calls) (calls.flatten.foldl Seen.look seen) := by
  induction calls generalizing p seen with
  | nil => exact h
  | cons turns calls ih =>
    obtain ⟨p', hp', heq⟩ := @Knows.addAllToIndex mergedName _ _ h turns ⟨[], [], 0, 0⟩
    rw [List.flatten_cons, List.foldl_append]
    refine ih ?_
    show Knows (writeGlobalIndex mergedName p turns).2 _
    rw [writeGlobalIndex, heq]
    exact hp'

/-- A directory is missed if the process has looked at it before anything was saved there. -/
theorem mem_missed {directory : Text} : directory ∈ (turns.foldl Seen.look seen).missed ↔
    directory ∈ seen.missed ∨ ∃ before t after, turns = before ++ t :: after ∧
      t.2 = ⟨directory, false⟩ ∧
      ∀ w ∈ seen.saved ++ (before ++ [t]).flatMap Prod.fst, w.directory ≠ directory := by
  induction turns generalizing seen with
  | nil => simp
  | cons t turns ih =>
    have hlook : directory ∈ (seen.look t).missed ↔ directory ∈ seen.missed ∨
        (t.2 = ⟨directory, false⟩ ∧ ∀ w ∈ seen.saved ++ t.1, w.directory ≠ directory) := by
      obtain ⟨more, name, isLink⟩ := t
      simp only [Seen.look, Dirent.mk.injEq]
      split
      next hskip =>
        refine (or_iff_left ?_).symm
        rintro ⟨⟨rfl, rfl⟩, hnone⟩
        rw [Bool.false_or, List.any_eq_true] at hskip
        obtain ⟨w, hw, heq⟩ := hskip
        exact hnone w hw (of_decide_eq_true heq)
      next hskip =>
        rw [Bool.not_eq_true, Bool.or_eq_false_iff, List.any_eq_false] at hskip
        rw [List.mem_cons, or_comm]
        refine or_congr_right ⟨?_, fun h => h.1.1.symm⟩
        rintro rfl
        exact ⟨⟨rfl, hskip.1⟩, fun w hw => by simpa using hskip.2 w hw⟩
    rw [List.foldl_cons, ih, hlook, or_assoc]
    refine or_congr_right ⟨?_, ?_⟩
    · rintro (⟨heq, hnone⟩ | ⟨before, t', after, rfl, heq, hnone⟩)
      · exact ⟨[], t, turns, rfl, heq, by simpa using hnone⟩
      · exact ⟨t :: before, t', after, rfl, heq, by simpa [Seen.look] using hnone⟩
    · rintro ⟨before, t', after, hsplit, heq, hnone⟩
      cases before with
      | nil =>
        obtain ⟨rfl, rfl⟩ := List.cons.inj hsplit
        exact Or.inl ⟨heq, by simpa using hnone⟩
      | cons b before =>
        obtain ⟨rfl, rfl⟩ := List.cons.inj hsplit
        exact Or.inr ⟨before, t', after, rfl, heq, by simpa [Seen.look] using hnone⟩

/-- The link of an entry leads to the report in its directory. -/
theorem decode_link {curlEscape : Text → Option Text}
    (hescape : ∀ s, curlEscape s = some (Percent.encode isUnreserved s))
    {x : Text × ExecutionSummary × Text} (hslash : slash ∉ x.1) :
    Percent.decode ((entryOf x).link curlEscape) = x.1 ++ ascii "/index.html" := by
  have hsplit : splitString slash (x.1 ++ ascii "/index.html") = [x.1, ascii "index.html"] :=
    (splitString_item hslash).trans (congrArg (x.1 :: ·) (by decide))
  have hlink : (entryOf x).link curlEscape =
      Percent.encode isUnreserved x.1 ++ ascii "/index.html" := by
    rw [IndexEntry.link, entryOf, escapeUrl, hsplit]
    simp only [hescape, Option.getD_some]
    show Percent.encode isUnreserved x.1 ++
      ([slash] ++ Percent.encode isUnreserved (ascii "index.html")) = _
    rfl
  rw [hlink, Percent.decode_encode (by decide)]
  rfl

theorem slash_notMem_of_listed (hslash : ∀ t ∈ turns, slash ∉ t.2.name) :
    ∀ x ∈ listed seen turns, slash ∉ x.1 := by
  induction turns generalizing seen with
  | nil => exact fun x hx => absurd hx List.not_mem_nil
  | cons t turns ih =>
    obtain ⟨hfirst, hrest⟩ := List.forall_mem_cons.mp hslash
    intro x hx
    rw [listed, List.mem_append] at hx
    rcases hx with hx | hx
    · split at hx
      · cases hx
      · obtain ⟨y, -, rfl⟩ := List.mem_map.mp hx
        exact hfirst
    · exact ih hrest x hx

/-- A summary to which nobody writes while the index is made is listed, unless the process has looked
for it too early. -/
theorem mem_listed (ht : t ∈ turns) (hlink : t.2.isLink = false)
    (hquiet : ∀ t' ∈ turns, ∀ w ∈ t'.1, w.directory ≠ t.2.name) (hmissed : t.2.name ∉ seen.missed)
    {x : ExecutionSummary × Text} (hx : latest seen.saved t.2.name = some x) :
    (t.2.name, x) ∈ listed seen turns := by
  induction turns generalizing seen with
  | nil => cases ht
  | cons t' turns ih =>
    obtain ⟨hfirst, hrest⟩ := List.forall_mem_cons.mp hquiet
    have hsame : latest (seen.saved ++ t'.1) t.2.name = some x := by
      have hnone : t'.1.reverse.find? (fun w => w.directory = t.2.name) = none := by
        refine List.find?_eq_none.mpr fun w hw => ?_
        simpa using hfirst w (List.mem_reverse.mp hw)
      rw [← hx, latest, latest, List.reverse_append, List.find?_append, hnone, Option.none_or]
    -- there is a summary, so that it is not missed now
    have hfound : ((seen.saved ++ t'.1).any fun w => w.directory = t.2.name) = true := by
      rw [latest, Option.bind_eq_some_iff] at hsame
      obtain ⟨w, hw, -⟩ := hsame
      refine List.any_eq_true.mpr ⟨w, List.mem_reverse.mp (List.mem_of_find?_eq_some hw), ?_⟩
      exact List.find?_some (p := fun w : Saving => decide (w.directory = t.2.name)) hw
    have hkept : t.2.name ∉ (seen.look t').missed := by
      simp only [Seen.look]
      split
      · exact hmissed
      next hnone =>
        rw [List.mem_cons, not_or]
        refine ⟨fun heq => hnone ?_, hmissed⟩
        rw [← heq, hfound, Bool.or_true]
    rw [listed, List.mem_append]
    rcases List.mem_cons.mp ht with rfl | ht
    · left
      rw [if_neg (by simp [hlink, hkept]), hsame]
      exact List.mem_singleton.mpr rfl
    · exact Or.inr (ih ht hrest hkept hsame)

end Listed

/-- The index that a program makes shows the summaries of all programs, whatever these do in between
and whatever indexes the program has made before: the last one that was written to each directory, all
or nothing of it, under a link to the report there, with the merged reports apart, and the totals are
the sums of those that count. A program that is not writing while the index is made is left out only if
an earlier index has looked at its directory before anything was saved there. -/
theorem writeGlobalIndex_eq (curlEscape : Text → Option Text)
    (hescape : ∀ s, curlEscape s = some (Percent.encode isUnreserved s)) (mergedName : Text)
    (saved : List Saving) (earlier : List (List Turn)) (turns : List Turn)
    (hslash : ∀ t ∈ turns, slash ∉ t.2.name) :
    let seen := earlier.flatten.foldl Seen.look ⟨saved, []⟩
    (writeGlobalIndex mergedName ((IndexProcess.start saved).after mergedName earlier) turns).1 =
        { files := ((listed seen turns).filter fun x => x.2.2 ≠ mergedName).map entryOf
          mergedFiles := ((listed seen turns).filter fun x => x.2.2 = mergedName).map entryOf
          totalCodeLines := total ExecutionSummary.lines (listed seen turns)
          totalExecutedLines := total ExecutionSummary.executedLines (listed seen turns) } ∧
      (∀ x ∈ listed seen turns,
        Percent.decode ((entryOf x).link curlEscape) = x.1 ++ ascii "/index.html") ∧
      (∀ directory, directory ∈ seen.missed ↔ ∃ before t after,
        earlier.flatten = before ++ t :: after ∧ t.2 = ⟨directory, false⟩ ∧
          ∀ w ∈ saved ++ (before ++ [t]).flatMap Prod.fst, w.directory ≠ directory) ∧
      ∀ t ∈ turns, t.2.isLink = false → (∀ t' ∈ turns, ∀ w ∈ t'.1, w.directory ≠ t.2.name) →
        t.2.name ∉ seen.missed → ∀ x, latest seen.saved t.2.name = some x →
          (t.2.name, x) ∈ listed seen turns := by
  refine ⟨?_, fun x hx => decode_link hescape (slash_notMem_of_listed hslash x hx),
    fun directory => mem_missed.trans (or_iff_right List.not_mem_nil),
    fun t ht hlink hquiet hmissed x hx => mem_listed ht hlink hquiet hmissed hx⟩
  obtain ⟨p', -, heq⟩ := @Knows.addAllToIndex mergedName _ _
    (@Knows.after mergedName _ _ (knows_start saved) earlier) turns ⟨[], [], 0, 0⟩
  rw [writeGlobalIndex, heq]
  simp [Index.append]

/-- An index that is made when one program has a summary and another one has none yet. -/
def earlyTurns : List Turn := [([], ⟨ascii "a b.1", false⟩), ([], ⟨ascii "c.2", false⟩)]

/-- The next index: the second program has a summary by now, the first one has a new one, which is
merged, and a third one has not written all of its own. -/
def laterTurns : List Turn :=
  [([⟨ascii "c.2", ⟨7, 7, true⟩, ascii "c", 276⟩], ⟨ascii "c.2", false⟩),
    ([], ⟨ascii "a b", true⟩),
    ([⟨ascii "kcov-merged", ⟨17, 13, false⟩, ascii "[merged]", 276⟩], ⟨ascii "kcov-merged", false⟩),
    ([⟨ascii "a b.1", ⟨10, 6, true⟩, ascii "a b", 276⟩, ⟨ascii "d.3", ⟨5, 5, true⟩, ascii "d", 100⟩],
      ⟨ascii "a b.1", false⟩),
    ([], ⟨ascii "d.3", false⟩)]

theorem writeGlobalIndex_eq_twoPrograms :
    (writeGlobalIndex (ascii "[merged]")
        ((IndexProcess.start [⟨ascii "a b.1", ⟨10, 4, true⟩, ascii "a b", 276⟩]).after
          (ascii "[merged]") [earlyTurns]) laterTurns).1 =
      { files := [⟨ascii "a b.1/index.html", ascii "a b", 10, 6⟩]
        mergedFiles := [⟨ascii "kcov-merged/index.html", ascii "[merged]", 17, 13⟩]
        totalCodeLines := 10
        totalExecutedLines := 6 } := by
  obtain ⟨hindex, -⟩ := writeGlobalIndex_eq (fun s => some (Percent.encode isUnreserved s))
    (fun _ => rfl) (ascii "[merged]") [⟨ascii "a b.1", ⟨10, 4, true⟩, ascii "a b", 276⟩]
    [earlyTurns] laterTurns (by decide)
  rw [hindex]
  decide

end HtmlWriter

end Kcov
