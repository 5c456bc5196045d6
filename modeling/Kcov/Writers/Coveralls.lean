import Kcov.Writers.JsonReports

/-! The report for Coveralls: names of files are escaped in it, and what Git and the configuration
say is not. -/

namespace Kcov

open Bytes

/-- `m_gitInfo`, but for the path of the work tree. -/
structure GitInfo where
  commitHash : Text
  authorName : Text
  authorEmail : Text
  committerName : Text
  committerEmail : Text
  commitMessage : Text
  gitBranch : Text

/-- The keys `coveralls-id` and `coveralls-service-name`, and `m_gitInfo` if it is not empty. -/
structure CoverallsKeys where
  id : Text
  serviceName : Text
  gitInfo : Option GitInfo

namespace CoverallsWriter

def isRepoToken (str : Text) : Bool := 32 ≤ str.length

/-! ### The text of the report -/

/-- The name of a member, up to the quote in front of its value. -/
def opening (indent key : String) : Text :=
  ascii indent ++ ascii "\"" ++ ascii key ++ ascii "\": \""

/-- A member of an object, up to the quote that ends its value. -/
def member (indent key : String) (value : Text) : Text :=
  opening indent key ++ value ++ ascii "\""

def idText (k : CoverallsKeys) : Text :=
  if isRepoToken k.id then member " " "repo_token" k.id ++ ascii ",\n"
  else
    member " " "service_name" k.serviceName ++ ascii ",\n" ++
      member " " "service_job_id" k.id ++ ascii ",\n"

def gitText (g : GitInfo) : Text :=
  ascii " \"git\": \x7b\n  \"head\": \x7b\n" ++
    member "   " "id" g.commitHash ++ ascii ",\n" ++
    member "   " "author_name" g.authorName ++ ascii ",\n" ++
    member "   " "author_email" g.authorEmail ++ ascii ",\n" ++
    member "   " "committer_name" g.committerName ++ ascii ",\n" ++
    member "   " "committer_email" g.committerEmail ++ ascii ",\n" ++
    member "   " "message" g.commitMessage ++ ascii "\n" ++
    ascii "  \x7d,\n" ++
    member "  " "branch" g.gitBranch ++ ascii "\n" ++
    ascii " \x7d,\n"

/-- The name under which a file is listed. The common path is set up once more where no path is to
be stripped. -/
def listedName (r : ReportInput) (file : WriterFile) : Text :=
  fileName r.uploads
    (if r.uploads.stripPath = [] then
      WriterBase.setupCommonPaths r.commonPath (r.visited.map (·.name))
    else r.commonPath) file.name

/-- The value of a line, and a comma behind all but the last. -/
def lineValue (r : ReportInput) (file : WriterFile) (n : U32) : Text :=
  if !r.reporter.lineIsCode file.name n then ascii "null" else printUnsigned (r.hits file n)

def coverage (r : ReportInput) (file : WriterFile) : Text :=
  file.lineNrs.flatMap fun n =>
    lineValue r file n ++ if n ≠ file.lastLineNr - 1 then ascii "," else []

/-- `file->m_crc`. -/
def crc (r : ReportInput) (file : WriterFile) : U32 := r.cfg.host.hashBlock file.name

/-- An entry without the bracket that closes it. -/
def fileText (r : ReportInput) (file : WriterFile) : Text :=
  ascii "  \x7b\n" ++ ascii "   \"name\": \"" ++ escapeJson (listedName r file) ++ ascii "\",\n" ++
    ascii "   \"source_digest\": \"0x" ++ hexName (crc r file) ++ ascii "\",\n" ++
    ascii "   \"coverage\": [" ++ coverage r file ++ ascii "]\n"

/-- The loop over the files, with its comma behind all but the last. -/
def filesText (r : ReportInput) : List WriterFile → Text
  | [] => []
  | file :: files =>
    fileText r file ++ (if 0 < files.length then ascii "  \x7d,\n" else ascii "  \x7d\n") ++
      filesText r files

/-- What `write` writes where there is an id. -/
def write (r : ReportInput) (k : CoverallsKeys) : Text :=
  ascii "\x7b\n" ++ idText k ++ (k.gitInfo.elim [] gitText) ++ ascii " \"source_files\": [\n" ++
    filesText r r.visited ++ ascii " ]\n" ++ ascii "\x7d\n"

/-! ### What is to be read from it -/

def memberTokens (key : String) (value : Text) : List Json.Token :=
  [.string (ascii key), .colon, .string value]

def idTokens (k : CoverallsKeys) : List Json.Token :=
  if isRepoToken k.id then memberTokens "repo_token" k.id ++ [Json.Token.comma]
  else
    memberTokens "service_name" k.serviceName ++ [Json.Token.comma] ++
      memberTokens "service_job_id" k.id ++ [Json.Token.comma]

def gitTokens (g : GitInfo) : List Json.Token :=
  [Json.Token.string (ascii "git"), .colon, .beginObject, .string (ascii "head"), .colon,
      .beginObject] ++
    memberTokens "id" g.commitHash ++ [Json.Token.comma] ++
    memberTokens "author_name" g.authorName ++ [Json.Token.comma] ++
    memberTokens "author_email" g.authorEmail ++ [Json.Token.comma] ++
    memberTokens "committer_name" g.committerName ++ [Json.Token.comma] ++
    memberTokens "committer_email" g.committerEmail ++ [Json.Token.comma] ++
    memberTokens "message" g.commitMessage ++ [Json.Token.endObject, .comma] ++
    memberTokens "branch" g.gitBranch ++ [Json.Token.endObject, .comma]

/-- A line that is no code has no value. -/
def lineToken (r : ReportInput) (file : WriterFile) (n : U32) : Json.Token :=
  .word (if r.reporter.lineIsCode file.name n then printUnsigned (r.hits file n) else ascii "null")

def openTokens (r : ReportInput) (file : WriterFile) : List Json.Token :=
  [.beginObject, .string (ascii "name"), .colon, .string (listedName r file), .comma,
    .string (ascii "source_digest"), .colon, .string (ascii "0x" ++ hexName (crc r file)), .comma,
    .string (ascii "coverage"), .colon, .beginArray]

def fileTokens (r : ReportInput) (file : WriterFile) : List Json.Token :=
  openTokens r file ++
    (Lexer.separated [.comma] true (file.lineNrs.map fun n => [lineToken r file n]) ++
      [.endArray]) ++
    [.endObject]

def tokens (r : ReportInput) (k : CoverallsKeys) : List Json.Token :=
  .beginObject :: idTokens k ++ (k.gitInfo.elim [] gitTokens) ++
    [.string (ascii "source_files"), .colon, .beginArray] ++
    Lexer.separated [.comma] true (r.visited.map (fileTokens r)) ++ [.endArray, .endObject]

/-! ### When it is read back -/

/-- The texts that are written as they are can stand in a string. -/
def GitInfo.Verbatim (g : GitInfo) : Prop :=
  ∀ s ∈ [g.commitHash, g.authorName, g.authorEmail, g.committerName, g.committerEmail,
    g.commitMessage, g.gitBranch], Json.Verbatim s

def IsVerbatim (k : CoverallsKeys) : Prop :=
  Json.Verbatim k.id ∧ (isRepoToken k.id = false → Json.Verbatim k.serviceName) ∧
    ∀ g ∈ k.gitInfo, GitInfo.Verbatim g

/-- What `escape_json` escapes so that it is read back. -/
def IsReadable (s : Text) : Prop :=
  (∀ b ∈ s, EscapeJson.IsReadable b) ∧ (Utf8.codePoints s).isSome = true

section Reading

variable {r : ReportInput} {k : CoverallsKeys} {file : WriterFile} {n : U32}

theorem prints_member {indent key : String} {literal : Text} {out : List Json.Token} (value : Text)
    (hopen : Json.lexer.feed .between (opening indent key) =
      some (.string [], [.string (ascii key), .colon]))
    (hends : Json.EndsString literal)
    (hrest : Json.lexer.feed .between literal = some (.between, out)) :
    Json.lexer.Prints .between (member indent key value ++ literal) (memberTokens key value ++ out)
      .between (Json.Verbatim value) := by
  have hprints := Json.prints_name (Lexer.Prints.of_feed hopen) value (Json.quote :: literal) rfl
    hends hrest
  have hquote : ascii "\"" = [Json.quote] := rfl
  rw [true_and] at hprints
  rw [member, hquote, List.append_assoc, List.singleton_append]
  exact hprints

theorem feed_comma : Json.lexer.feed .between (ascii ",\n") = some (.between, [.comma]) := by
  decide

theorem feed_newline : Json.lexer.feed .between (ascii "\n") = some (.between, []) := by
  decide

theorem prints_id (k : CoverallsKeys) : Json.lexer.Prints .between (idText k) (idTokens k) .between
    (Json.Verbatim k.id ∧ (isRepoToken k.id = false → Json.Verbatim k.serviceName)) := by
  rw [idText, idTokens]
  cases hrepo : isRepoToken k.id with
  | true =>
    rw [if_pos rfl, if_pos rfl]
    exact (prints_member k.id (by decide) (by decide) feed_comma).congr (by simp)
  | false =>
    have hname := @prints_member " " "service_name" _ _ k.serviceName (by decide)
      (by decide) feed_comma
    have hid := @prints_member " " "service_job_id" _ _ k.id (by decide) (by decide)
      feed_comma
    have hboth := (hname.append hid).congr (show _ ↔ Json.Verbatim k.id ∧ _ from and_comm)
    rw [if_neg Bool.false_ne_true, if_neg Bool.false_ne_true]
    simp only [← List.append_assoc] at hboth
    exact hboth.congr (by simp)

theorem prints_git (g : GitInfo) : Json.lexer.Prints .between (gitText g) (gitTokens g) .between
    (GitInfo.Verbatim g) := by
  have hhead : Json.lexer.feed .between (ascii " \"git\": \x7b\n  \"head\": \x7b\n") =
      some (.between, [.string (ascii "git"), .colon, .beginObject, .string (ascii "head"), .colon,
        .beginObject]) := by
    decide
  have hclose : Json.lexer.feed .between (ascii "  \x7d,\n") =
      some (.between, [.endObject, .comma]) := by
    decide
  have hend : Json.lexer.feed .between (ascii " \x7d,\n") =
      some (.between, [.endObject, .comma]) := by
    decide
  have hid := (@prints_member "   " "id" _ _ g.commitHash (by decide) (by decide)
    feed_comma).after hhead
  have hauthor := hid.append (@prints_member "   " "author_name" _ _ g.authorName
    (by decide) (by decide) feed_comma)
  have hauthorEmail := hauthor.append (@prints_member "   " "author_email" _ _ g.authorEmail
    (by decide) (by decide) feed_comma)
  have hcommitter := hauthorEmail.append (@prints_member "   " "committer_name" _ _ g.committerName
    (by decide) (by decide) feed_comma)
  have hcommitterEmail := hcommitter.append (@prints_member "   " "committer_email" _ _
    g.committerEmail (by decide) (by decide) feed_comma)
  have hmessage := (hcommitterEmail.append (@prints_member "   " "message" _ _ g.commitMessage
    (by decide) (by decide) feed_newline)).before hclose
  have hbranch := (hmessage.append (@prints_member "  " "branch" _ _ g.gitBranch
    (by decide) (by decide) feed_newline)).before hend
  rw [gitText, gitTokens]
  simp only [← List.append_assoc, List.append_nil] at hbranch
  refine hbranch.congr ?_
  simp only [GitInfo.Verbatim, List.forall_mem_cons, List.not_mem_nil, false_imp_iff, implies_true,
    and_true, and_assoc]

theorem figures_hexName (v : U32) : Figures (ascii "0x" ++ hexName v) := by
  have hdigit : ∀ d : Fin 16, isFigure (hexDigit d.val) = true := by decide
  have hdigits : ∀ n v, Figures (hexDigits n v) := by
    intro n
    induction n with
    | zero => exact fun v b hb => absurd hb List.not_mem_nil
    | succ n ih =>
      intro v b hb
      rcases List.mem_append.mp hb with hb | hb
      · exact ih _ b hb
      · rw [List.mem_singleton.mp hb]
        exact hdigit ⟨v % 16, Nat.mod_lt v (by decide)⟩
  intro b hb
  rcases List.mem_append.mp hb with hb | hb
  · exact (show Figures (ascii "0x") by decide) b hb
  · exact hdigits 8 v.toNat b hb

theorem separated_snoc {α : Type} (sep x : List α) (xs : List (List α)) :
    Lexer.separated sep true (xs ++ [x]) = xs.flatMap (· ++ sep) ++ x := by
  have hrest : ∀ (xs : List (List α)), sep ++ Lexer.separated sep true (xs ++ [x]) =
      Lexer.separated sep false (xs ++ [x]) := by
    intro xs
    cases xs <;> simp [Lexer.separated]
  induction xs with
  | nil => simp [Lexer.separated]
  | cons y ys ih =>
    rw [List.cons_append, Lexer.separated, ← hrest, ih]
    simp

/-- The comma behind a value is left out behind the last one. -/
theorem coverage_eq (r : ReportInput) (file : WriterFile) : coverage r file =
    Lexer.separated (ascii ",") true (file.lineNrs.map (lineValue r file)) := by
  obtain ⟨k, hk⟩ : ∃ k, file.lastLineNr.toNat - 1 = k := ⟨_, rfl⟩
  rw [coverage, WriterFile.lineNrs, hk]
  cases k with
  | zero => rfl
  | succ k =>
    have hlast : BitVec.ofNat 32 (k + 1) = file.lastLineNr - 1 := by
      have hlt := file.lastLineNr.isLt
      apply BitVec.eq_of_toNat_eq
      rw [BitVec.toNat_ofNat, BitVec.toNat_sub]
      simp
      omega
    have hother : ∀ n ∈ List.range' 1 k, BitVec.ofNat 32 n ≠ file.lastLineNr - 1 := by
      intro n hn heq
      have hlt := file.lastLineNr.isLt
      rw [← hlast] at heq
      have hnat := congrArg BitVec.toNat heq
      rw [BitVec.toNat_ofNat, BitVec.toNat_ofNat] at hnat
      rw [List.mem_range'_1] at hn
      omega
    rw [List.range'_concat, List.map_append, List.map_append, List.map_singleton,
      List.map_singleton, separated_snoc, List.flatMap_append, List.flatMap_singleton,
      List.flatMap_map, List.flatMap_map, List.flatMap_map]
    have hend : BitVec.ofNat 32 (1 + 1 * k) = file.lastLineNr - 1 := by
      rw [← hlast]
      congr 1
      omega
    rw [if_neg (not_not.mpr hend), List.append_nil, List.flatMap_congr fun n hn => by
      rw [if_pos (hother n hn)]]

/-- The value of a line, and a literal part behind it. -/
theorem prints_value {literal : Text} {out : List Json.Token}
    (hends : ∃ b ∈ literal.head?, Json.isWordByte b = false)
    (hliteral : Json.lexer.feed .between literal = some (.between, out)) :
    Json.lexer.Prints .between (lineValue r file n ++ literal) (lineToken r file n :: out) .between
      True := by
  have hstart : Json.lexer.Prints .between [] [] .between True := Lexer.Prints.of_feed rfl
  have hvalue : ∀ w : Text, w ≠ [] → (∀ b ∈ w, Json.isWordByte b = true) → Json.isWord w = true →
      Json.lexer.Prints .between (w ++ literal) (.word w :: out) .between True :=
    fun w hne hbytes hword => Json.prints_word hstart hne hbytes hword literal hends hliteral
  rw [lineValue, lineToken]
  cases r.reporter.lineIsCode file.name n with
  | true =>
    exact hvalue _ (decimal_ne_nil _) (fun _ hb => isWordByte_decimal hb) (isWord_decimal _)
  | false => exact hvalue (ascii "null") (by decide) (by decide) (by decide)

theorem prints_values (r : ReportInput) (file : WriterFile) (ns : List U32) :
    Json.lexer.Prints .between
      (Lexer.separated (ascii ",") true (ns.map (lineValue r file)) ++ ascii "]\n")
      (Lexer.separated [Json.Token.comma] true (ns.map fun n => [lineToken r file n]) ++
        [Json.Token.endArray])
      .between True := by
  have hclose : Json.lexer.feed .between (ascii "]\n") = some (.between, [.endArray]) := by
    decide
  have hcomma : Json.lexer.feed .between (ascii ",") = some (.between, [.comma]) := by
    decide
  induction ns with
  | nil => exact Lexer.Prints.of_feed hclose
  | cons n ns ih =>
    cases ns with
    | nil =>
      have hvalue := @prints_value r file n (ascii "]\n") [.endArray] ⟨0x5d, rfl, rfl⟩ hclose
      simpa only [List.map_cons, List.map_nil, Lexer.separated, if_true, List.nil_append,
        List.append_nil, List.cons_append] using hvalue
    | cons m ms =>
      have hvalue := @prints_value r file n (ascii ",") [.comma] ⟨0x2c, rfl, rfl⟩ hcomma
      have hboth := (hvalue.append ih).congr (show True ∧ True ↔ True by rw [and_true])
      simpa only [List.map_cons, Lexer.separated, if_true, if_neg Bool.false_ne_true,
        List.nil_append, List.append_assoc, List.cons_append] using hboth

theorem prints_file (r : ReportInput) (file : WriterFile) :
    Json.lexer.Prints .between (fileText r file) (openTokens r file ++
      (Lexer.separated [Json.Token.comma] true (file.lineNrs.map fun n => [lineToken r file n]) ++
        [Json.Token.endArray])) .between (IsReadable (listedName r file)) := by
  have hopen : Json.lexer.feed .between (ascii "  \x7b\n" ++ ascii "   \"name\": \"") =
      some (.string [], [.beginObject, .string (ascii "name"), .colon]) := by
    decide
  have hnext : Json.lexer.feed .between
      (ascii "\",\n" ++ ascii "   \"source_digest\": \"").tail =
        some (.string [], [.comma, .string (ascii "source_digest"), .colon]) := by
    decide
  have harray : Json.lexer.feed .between (ascii "\",\n" ++ ascii "   \"coverage\": [").tail =
      some (.between, [.comma, .string (ascii "coverage"), .colon, .beginArray]) := by
    decide
  have hname := EscapeJson.prints_escaped (Lexer.Prints.of_feed hopen) (listedName r file) _ rfl
    hnext
  have hdigest := Json.prints_verbatim hname (figures_hexName (crc r file)).json _ rfl harray
  have hwhole := (hdigest.append (prints_values r file file.lineNrs)).congr
    (show _ ↔ IsReadable (listedName r file) by rw [IsReadable, true_and, and_true])
  have hprefix : ascii "   \"source_digest\": \"0x" =
      ascii "   \"source_digest\": \"" ++ ascii "0x" := rfl
  rw [fileText, coverage_eq, openTokens, hprefix]
  simpa only [List.append_assoc, List.cons_append, List.nil_append] using hwhole

theorem prints_files (r : ReportInput) (files : List WriterFile) :
    Json.lexer.Prints .between (filesText r files)
      (Lexer.separated [Json.Token.comma] true (files.map (fileTokens r))) .between
      (∀ file ∈ files, IsReadable (listedName r file)) := by
  have hmore : Json.lexer.feed .between (ascii "  \x7d,\n") =
      some (.between, [.endObject, .comma]) := by
    decide
  have hlast : Json.lexer.feed .between (ascii "  \x7d\n") = some (.between, [.endObject]) := by
    decide
  induction files with
  | nil => exact (Lexer.Prints.of_feed rfl).congr (by simp)
  | cons file files ih =>
    rw [filesText]
    cases files with
    | nil =>
      have hfile := (prints_file r file).before hlast
      rw [if_neg (by simp), filesText, List.append_nil]
      simp only [List.map_cons, List.map_nil, Lexer.separated, if_true, List.nil_append,
        List.append_nil]
      exact hfile.congr (by simp)
    | cons next files =>
      have hfile := ((prints_file r file).before hmore).append ih
      have htokens :
          Lexer.separated [Json.Token.comma] true ((file :: next :: files).map (fileTokens r)) =
          openTokens r file ++ (Lexer.separated [Json.Token.comma] true
            (file.lineNrs.map fun n => [lineToken r file n]) ++ [Json.Token.endArray]) ++
              [Json.Token.endObject, .comma] ++
                Lexer.separated [Json.Token.comma] true ((next :: files).map (fileTokens r)) := by
        simp only [List.map_cons, Lexer.separated, if_true, if_neg Bool.false_ne_true,
          List.nil_append, fileTokens, List.append_assoc, List.cons_append]
      rw [if_pos (by simp), htokens]
      exact hfile.congr (by simp)

theorem tokens_write_iff (r : ReportInput) (k : CoverallsKeys) :
    Json.lexer.tokens .between (write r k) = some (tokens r k) ↔
      IsVerbatim k ∧ ∀ file ∈ r.visited, IsReadable (listedName r file) := by
  have hopen : Json.lexer.feed .between (ascii "\x7b\n") = some (.between, [.beginObject]) := by
    decide
  have hfiles : Json.lexer.feed .between (ascii " \"source_files\": [\n") =
      some (.between, [.string (ascii "source_files"), .colon, .beginArray]) := by
    decide
  have hclose : Json.lexer.feed .between (ascii " ]\n" ++ ascii "\x7d\n") =
      some (.between, [.endArray, .endObject]) := by
    decide
  have hgit : Json.lexer.Prints .between (k.gitInfo.elim [] gitText) (k.gitInfo.elim [] gitTokens)
      .between (∀ g ∈ k.gitInfo, GitInfo.Verbatim g) := by
    cases k.gitInfo with
    | none => exact (Lexer.Prints.of_feed rfl).congr (by simp)
    | some g => exact (prints_git g).congr (by simp)
  have hhead := (((prints_id k).after hopen).append hgit).before hfiles
  have hwhole := (hhead.append (prints_files r r.visited)).before hclose
  rw [← List.append_assoc] at hwhole
  refine (hwhole.congr ?_).tokens_iff rfl
  simp only [IsVerbatim, and_assoc]

theorem foldlM_member (key : String) (value : Text) {e : Json.Expects}
    (he : e = .member ∨ e = .name) (nesting : List Json.Nesting) :
    (memberTokens key value).foldlM Json.Place.step ⟨.object :: nesting, e⟩ =
      some ⟨.object :: nesting, .done⟩ := by
  rw [memberTokens]
  generalize ascii key = name
  rcases he with rfl | rfl <;> rfl

theorem foldlM_comma (nesting : List Json.Nesting) :
    [Json.Token.comma].foldlM Json.Place.step ⟨.object :: nesting, .done⟩ =
      some ⟨.object :: nesting, .name⟩ := rfl

theorem foldlM_id (k : CoverallsKeys) (nesting : List Json.Nesting) :
    (idTokens k).foldlM Json.Place.step ⟨.object :: nesting, .member⟩ =
      some ⟨.object :: nesting, .name⟩ := by
  rw [idTokens]
  split
  · rw [List.foldlM_append, foldlM_member _ _ (Or.inl rfl), Option.bind_eq_bind, Option.bind_some,
      foldlM_comma]
  · simp only [List.foldlM_append, Option.bind_eq_bind, Option.bind_some,
      foldlM_member _ _ (Or.inl rfl), foldlM_member _ _ (Or.inr rfl), foldlM_comma]

theorem foldlM_git (g : GitInfo) (nesting : List Json.Nesting) :
    (gitTokens g).foldlM Json.Place.step ⟨.object :: nesting, .name⟩ =
      some ⟨.object :: nesting, .name⟩ := by
  have hhead : ∀ git head : Text, [Json.Token.string git, .colon, .beginObject, .string head,
      .colon, .beginObject].foldlM Json.Place.step ⟨.object :: nesting, .name⟩ =
        some ⟨.object :: .object :: .object :: nesting, .member⟩ := fun _ _ => rfl
  have hclose : ∀ nesting : List Json.Nesting, [Json.Token.endObject, .comma].foldlM Json.Place.step
      ⟨.object :: .object :: nesting, .done⟩ = some ⟨.object :: nesting, .name⟩ := fun _ => rfl
  simp only [gitTokens, List.foldlM_append, hhead, Option.bind_eq_bind,
    Option.bind_some, foldlM_member _ _ (Or.inl rfl), foldlM_member _ _ (Or.inr rfl), foldlM_comma,
    hclose]

theorem wellFormed_tokens (r : ReportInput) (k : CoverallsKeys) : Json.WellFormed (tokens r k) := by
  have hgit : (k.gitInfo.elim [] gitTokens).foldlM Json.Place.step ⟨[.object], .name⟩ =
      some ⟨[.object], .name⟩ := by
    cases k.gitInfo with
    | none => rfl
    | some g => exact foldlM_git g []
  have hfile : ∀ x ∈ r.visited.map (fileTokens r), ∀ e, e = .element ∨ e = .value →
      x.foldlM Json.Place.step ⟨[.array, .object], e⟩ = some ⟨[.array, .object], .done⟩ := by
    intro x hx e he
    obtain ⟨file, -, rfl⟩ := List.mem_map.mp hx
    have hopen : (openTokens r file).foldlM Json.Place.step ⟨[.array, .object], e⟩ =
        some ⟨[.array, .object, .array, .object], .element⟩ := by
      rw [openTokens]
      generalize ascii "name" = name, ascii "source_digest" = digest, ascii "coverage" = coverage
      rcases he with rfl | rfl <;> rfl
    have hvalues := @Json.foldlM_separated .array [.object, .array, .object] .element .value
      .endArray (file.lineNrs.map fun n => [lineToken r file n]) rfl
      (by rintro e (rfl | rfl) <;> rfl)
      (by
        intro x hx e he
        obtain ⟨n, -, rfl⟩ := List.mem_map.mp hx
        rcases he with rfl | rfl <;> rfl)
    rw [fileTokens, List.append_assoc, List.foldlM_append, hopen, Option.bind_eq_bind,
      Option.bind_some, List.foldlM_append, hvalues]
    rfl
  have hfiles := @Json.foldlM_separated .array [.object] .element .value .endArray _ rfl
    (by rintro e (rfl | rfl) <;> rfl) hfile
  have hbegin : [Json.Token.beginObject].foldlM Json.Place.step ⟨[], .value⟩ =
      some ⟨[.object], .member⟩ := rfl
  have hname : ∀ name : Text, [Json.Token.string name, .colon, .beginArray].foldlM
      Json.Place.step ⟨[.object], .name⟩ = some ⟨[.array, .object], .element⟩ := fun _ => rfl
  have hend : [Json.Token.endObject].foldlM Json.Place.step ⟨[.object], .done⟩ =
      some ⟨[], .done⟩ := rfl
  have hsplit : tokens r k = [.beginObject] ++ (idTokens k ++ (k.gitInfo.elim [] gitTokens ++
      ([.string (ascii "source_files"), .colon, .beginArray] ++
        ((Lexer.separated [.comma] true (r.visited.map (fileTokens r)) ++ [.endArray]) ++
          [.endObject])))) := by
    simp only [tokens, List.append_assoc, List.cons_append, List.nil_append]
  rw [Json.WellFormed, hsplit, List.foldlM_append, hbegin, Option.bind_eq_bind, Option.bind_some,
    List.foldlM_append, foldlM_id, Option.bind_eq_bind, Option.bind_some, List.foldlM_append, hgit,
    Option.bind_eq_bind, Option.bind_some, List.foldlM_append, hname, Option.bind_eq_bind,
    Option.bind_some, List.foldlM_append, hfiles, Option.bind_eq_bind, Option.bind_some, hend]

/-- The report is read back as it was meant exactly if the texts from Git and from the configuration
can stand in a string as they are, and the names of the files are what `escape_json` can escape. -/
theorem read_write_iff (r : ReportInput) (k : CoverallsKeys) :
    Json.read (write r k) = some (tokens r k) ↔
      IsVerbatim k ∧ ∀ file ∈ r.visited, IsReadable (listedName r file) :=
  (Json.read_eq_some (wellFormed_tokens r k)).trans (tokens_write_iff r k)

end Reading

end CoverallsWriter

end Kcov
