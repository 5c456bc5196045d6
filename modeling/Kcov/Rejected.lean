import Kcov.CommandLine
import Kcov.Lib.Runs

/-! Values of options that are no numbers, or too large ones, and how `parse` ends with them. -/

namespace Kcov.CommandLine

open Bytes Getopt Runs

/-- The ends for a command line that is not accepted. -/
def IsRejection (e : Stop) : Prop := e = .usage ∨ e = .panic

instance : DecidablePred IsRejection := fun _ => inferInstanceAs (Decidable (_ ∨ _))

/-- The number that a value begins with is an `unsigned long`; it is zero where there is none. -/
def Fits (value : Text) : Prop := numberOf 10 (leadingDigits value) < 2 ^ 64

instance : DecidablePred Fits := fun _ => inferInstanceAs (Decidable (_ < _))

/-- An entry of `--configure` whose number, if it has to have one, can be converted. -/
def SafeEntry (entry : Text) : Prop :=
  ∀ key value, splitString equalsSign entry = [key, value] →
    (key ∈ checkedKeys → Fits value) ∧
      (key ∈ uncheckedKeys → leadingDigits value ≠ [] ∧ Fits value)

/-- The second of the limits is only looked at if the first is a number, and an entry of `--configure`
if the entries before it are accepted. -/
def SafeArgument (sys : System) (s : ParseState) (optarg : Text) : Valued → Prop
  | .pid | .outputInterval | .pathStripLevel | .debug => Fits optarg
  | .limits => ∀ low high, getCommaSeparatedList optarg = [low, high] →
      Fits low ∧ (isInteger low = .ok true → Fits high)
  | .configure => AllSteps (fun pre entry => ∀ keys,
      pre.foldlM configureEntry s.keys = .ok keys → SafeEntry entry) (splitString comma optarg)
  | .includePath | .excludePath =>
      sys.home = none → ∀ path ∈ getCommaSeparatedList optarg, path.head? ≠ some tilde
  | _ => True

def SafeOption (sys : System) (s : ParseState) : Found Opt → Prop
  | .option (.flag f) _ => f ≠ .version
  | .option (.valued v) (some optarg) => SafeArgument sys s optarg v
  | _ => True

/-- A file to run is named, unless the reports are merged or there is the file of the process. -/
def FileNamed (sys : System) (s : ParseState) (args : List Text) : Prop :=
  s.printUsage = false → s.extraNeeded ≤ args.length →
    ∀ mode pid, s.keys.ints (ascii "running-mode") = some mode →
      s.keys.ints (ascii "attach-pid") = some pid → mode ≠ RunMode.mergeOnly.value →
      pid = 0 ∨ sys.host.fileExists (sys.host.realPath (procPath (printSigned pid))) = false →
      2 ≤ args.length

/-- All options that are looked at are safe, and so are the other arguments behind them. -/
structure SafeArguments (sys : System) (program : Text) (args : List Text) : Prop where
  options : AllSteps (fun pre found => ∀ s,
    pre.foldlM (handle sys) (.start sys program) = .ok s → SafeOption sys s found)
    (getoptLong longOptions shortOptions args).1
  file : ∀ s, (getoptLong longOptions shortOptions args).1.foldlM (handle sys)
    (.start sys program) = .ok s → FileNamed sys s (getoptLong longOptions shortOptions args).2

section Values

variable {value : Text} {otherwise : Stop}

theorem stoul_cases (value : Text) :
    (leadingDigits value = [] ∧ stoul value = .error .invalidArgument) ∨
      (leadingDigits value ≠ [] ∧ ¬Fits value ∧ stoul value = .error .outOfRange) ∨
      (leadingDigits value ≠ [] ∧ Fits value ∧ ∃ n pos, stoul value = .ok (n, pos)) := by
  by_cases hdigits : leadingDigits value = []
  · exact Or.inl ⟨hdigits, if_pos hdigits⟩
  by_cases hlarge : 2 ^ 64 ≤ numberOf 10 (leadingDigits value)
  · refine Or.inr (Or.inl ⟨hdigits, Nat.not_lt.mpr hlarge, ?_⟩)
    rw [stoul, if_neg hdigits, if_pos hlarge]
  · refine Or.inr (Or.inr ⟨hdigits, Nat.lt_of_not_le hlarge, ?_⟩)
    rw [stoul, if_neg hdigits, if_neg hlarge]
    exact ⟨_, _, rfl⟩

theorem fits_of_empty (h : leadingDigits value = []) : Fits value := by
  rw [Fits, h]
  decide

theorem allowed_stoul : Allowed IsRejection (uncaught (stoul value)) ↔
    leadingDigits value ≠ [] ∧ Fits value := by
  rcases stoul_cases value with ⟨hdigits, hthrows⟩ | ⟨-, hfits, hthrows⟩ | ⟨hdigits, hfits, n, pos, hn⟩
  · rw [hthrows]
    simp [uncaught, Allowed, IsRejection, hdigits]
  · rw [hthrows]
    simp [uncaught, Allowed, IsRejection, hfits]
  · rw [hn]
    simp [uncaught, Allowed, hdigits, hfits]

/-- The check itself throws where the number is too large. -/
theorem allowed_checkedNumber (hotherwise : IsRejection otherwise) :
    Allowed IsRejection (checkedNumber otherwise value) ↔ Fits value := by
  rw [checkedNumber]
  rcases stoul_cases value with ⟨hdigits, hthrows⟩ | ⟨-, hfits, hthrows⟩ | ⟨-, hfits, n, pos, hn⟩
  · rw [isInteger, hthrows]
    exact iff_of_true hotherwise (fits_of_empty hdigits)
  · rw [isInteger, hthrows]
    refine iff_of_false (fun h => ?_) hfits
    rcases h with h | h <;> cases h
  · have hvalid : isInteger value = .ok (decide (pos = value.length)) := by
      rw [isInteger, hn]
    rw [hvalid, hn]
    refine iff_of_true ?_ hfits
    cases decide (pos = value.length) with
    | true => trivial
    | false => exact hotherwise

/-- Where a value is a number, the check lets it through. -/
theorem isInteger_of_checkedNumber {n : BitVec 64} (h : checkedNumber otherwise value = .ok n) :
    isInteger value = .ok true := by
  rw [checkedNumber] at h
  cases hvalid : isInteger value with
  | error e =>
    rw [hvalid] at h
    cases h
  | ok valid =>
    rw [hvalid] at h
    cases valid with
    | false => cases h
    | true => rfl

theorem checkedNumber_eq_ok (hinteger : isInteger value = .ok true) :
    ∃ n, checkedNumber otherwise value = .ok n := by
  rcases stoul_cases value with ⟨-, hthrows⟩ | ⟨-, -, hthrows⟩ | ⟨-, -, n, pos, hn⟩
  · rw [isInteger, hthrows] at hinteger
    cases hinteger
  · rw [isInteger, hthrows] at hinteger
    cases hinteger
  · refine ⟨n, ?_⟩
    rw [checkedNumber, hinteger, hn]
    rfl

end Values

/-! ### Options -/

section Options

variable {sys : System} {s : ParseState} {optarg : Text}

/-- A number that is only stored. -/
theorem allowed_number {σ : Type} (f : BitVec 64 → σ) :
    Allowed IsRejection (do return f (← checkedNumber .usage optarg)) ↔ Fits optarg := by
  rw [allowed_bind, allowed_checkedNumber (Or.inl rfl)]
  exact and_iff_left fun n _ => trivial

theorem allowed_configure (keys : KeyMaps) (key value : Text) :
    Allowed IsRejection (configure keys key value) ↔ (key ∈ checkedKeys → Fits value) ∧
      (key ∈ uncheckedKeys → leadingDigits value ≠ [] ∧ Fits value) := by
  have hdisjoint : ∀ key ∈ checkedKeys, key ∉ uncheckedKeys := by
    decide
  rw [configure]
  split
  next hchecked =>
    rw [List.contains_iff_mem] at hchecked
    rw [allowed_bind, allowed_checkedNumber (Or.inr rfl)]
    simp [hchecked, hdisjoint key hchecked, pure, Except.pure, Allowed]
  next hchecked =>
    rw [List.contains_iff_mem] at hchecked
    split
    next hunchecked =>
      rw [List.contains_iff_mem] at hunchecked
      rw [allowed_bind, allowed_stoul]
      simp [hchecked, hunchecked, pure, Except.pure, Allowed]
    next hunchecked =>
      rw [List.contains_iff_mem] at hunchecked
      refine iff_of_true ?_ ⟨fun h => absurd h hchecked, fun h => absurd h hunchecked⟩
      split
      · trivial
      · exact Or.inr rfl

theorem allowed_configureEntry (keys : KeyMaps) (entry : Text) :
    Allowed IsRejection (configureEntry keys entry) ↔ SafeEntry entry := by
  rw [configureEntry, SafeEntry]
  split
  next key value hsplit =>
    rw [allowed_configure, hsplit]
    constructor
    · rintro h key' value' heq
      cases heq
      exact h
    · exact fun h => h key value rfl
  next hother =>
    exact iff_of_true (Or.inl rfl) fun key value hsplit => absurd hsplit (hother key value)

theorem allowed_expandHome (path : Text) : Allowed IsRejection (expandHome sys path) ↔
    (sys.home = none → path.head? ≠ some tilde) := by
  rw [expandHome]
  by_cases htilde : path.head? = some tilde
  · rw [if_pos htilde]
    cases sys.home with
    | none => simp [htilde, throw, throwThe, MonadExceptOf.throw, Allowed, IsRejection]
    | some home => exact iff_of_true trivial fun h => by cases h
  · rw [if_neg htilde]
    exact iff_of_true trivial fun _ => htilde

theorem allowed_expandPath (paths : List Text) : Allowed IsRejection (expandPath sys paths) ↔
    (sys.home = none → ∀ path ∈ paths, path.head? ≠ some tilde) := by
  rw [expandPath]
  induction paths with
  | nil => exact iff_of_true trivial fun _ path hpath => absurd hpath List.not_mem_nil
  | cons path paths ih =>
    have hrest : ∀ first : Text, Allowed IsRejection
        (do return first :: (← paths.mapM (expandHome sys))) ↔
        (sys.home = none → ∀ path ∈ paths, path.head? ≠ some tilde) := by
      intro first
      rw [allowed_bind, ih]
      exact and_iff_left fun more _ => trivial
    rw [List.mapM_cons, allowed_bind, allowed_expandHome]
    simp only [hrest, List.forall_mem_cons]
    constructor
    · intro h hhome
      have hok : expandHome sys path = .ok path := if_neg (h.1 hhome)
      exact ⟨h.1 hhome, h.2 path hok hhome⟩
    · exact fun h => ⟨fun hhome => (h hhome).1, fun _ _ hhome => (h hhome).2⟩

theorem allowed_limits : Allowed IsRejection (handleArgument sys s optarg .limits) ↔
    SafeArgument sys s optarg .limits := by
  rw [handleArgument, SafeArgument]
  split
  next low high hlist =>
    have hboth : Allowed IsRejection (handleArgument sys s optarg .limits) ↔
        Fits low ∧ (isInteger low = .ok true → Fits high) := by
      rw [handleArgument, hlist, allowed_bind, allowed_checkedNumber (Or.inl rfl)]
      refine and_congr_right fun _ => ?_
      constructor
      · intro h hinteger
        obtain ⟨n, hn⟩ := checkedNumber_eq_ok hinteger
        have hhigh := (allowed_bind.mp (h n hn)).1
        exact (allowed_checkedNumber (Or.inl rfl)).mp hhigh
      · intro h n hn
        rw [allowed_bind, allowed_checkedNumber (Or.inl rfl)]
        exact ⟨h (isInteger_of_checkedNumber hn), fun _ _ => trivial⟩
    rw [handleArgument, hlist] at hboth
    rw [hboth, hlist]
    constructor
    · intro h low' high' heq
      cases heq
      exact h
    · exact fun h => h low high rfl
  next hother =>
    exact iff_of_true (Or.inl rfl) fun low high hlist => absurd hlist (hother low high)

theorem allowed_handleArgument (v : Valued) :
    Allowed IsRejection (handleArgument sys s optarg v) ↔ SafeArgument sys s optarg v := by
  cases v with
  | pid => exact allowed_number _
  | limits => exact allowed_limits
  | outputInterval => exact allowed_number _
  | pathStripLevel => exact allowed_number _
  | debug => exact allowed_number _
  | configure =>
    rw [handleArgument, allowed_bind, allowed_foldlM]
    refine (and_iff_left fun keys _ => trivial).trans ?_
    refine forall_congr' fun pre => forall_congr' fun entry => forall_congr' fun _ =>
      forall_congr' fun keys => imp_congr_right fun _ => ?_
    exact allowed_configureEntry keys entry
  | includePath =>
    rw [handleArgument, allowed_bind, allowed_expandPath]
    exact and_iff_left fun paths _ => trivial
  | excludePath =>
    rw [handleArgument, allowed_bind, allowed_expandPath]
    exact and_iff_left fun paths _ => trivial
  | replaceSrcPath =>
    refine iff_of_true ?_ trivial
    rw [handleArgument]
    split
    · split
      · trivial
      · exact Or.inr rfl
    · exact Or.inr rfl
  | bashMethod =>
    refine iff_of_true ?_ trivial
    rw [handleArgument]
    split
    · trivial
    split
    · trivial
    · exact Or.inr rfl
  | _ => exact iff_of_true trivial trivial

theorem allowed_handleFlag (f : Flag) :
    Allowed IsRejection (handleFlag s f) ↔ f ≠ .version := by
  cases f with
  | version => exact iff_of_false (fun h => by rcases h with h | h <;> cases h) fun h => h rfl
  | clang => exact iff_of_true (Or.inr rfl) (by decide)
  | _ => exact iff_of_true trivial (by decide)

/-- The options that the switch takes an argument from. -/
def needsArgument : Opt → Bool
  | .flag _ => false
  | .valued _ => true

theorem allowed_handle {found : Found Opt}
    (hargument : ∀ o, found = .option o none → needsArgument o = false) :
    Allowed IsRejection (handle sys s found) ↔ SafeOption sys s found := by
  cases found with
  | missingArgument => exact iff_of_true (Or.inl rfl) trivial
  | unrecognized => exact iff_of_true (Or.inl rfl) trivial
  | option o optarg =>
    cases o with
    | flag f => exact allowed_handleFlag f
    | valued v =>
      cases optarg with
      | none => cases hargument _ rfl
      | some optarg => exact allowed_handleArgument v

end Options

/-! ### The other arguments -/

section Arguments

variable {sys : System} {s : ParseState} {keys : KeyMaps}

theorem allowed_keyAsInt (key : String) : Allowed IsRejection (keyAsInt keys key) := by
  rw [keyAsInt]
  split
  · trivial
  · exact Or.inr rfl

theorem allowed_keyAsString (key : String) : Allowed IsRejection (keyAsString keys key) := by
  rw [keyAsString]
  split
  · trivial
  · exact Or.inr rfl

theorem keyAsInt_eq_ok {key : String} {v : BitVec 32} :
    keyAsInt keys key = .ok v ↔ keys.ints (ascii key) = some v := by
  rw [keyAsInt]
  split
  next val hval => simp [hval]
  next hnone => simp [hnone]

theorem allowed_inFile {args : List Text} : Allowed IsRejection (inFile args) ↔ args ≠ [] := by
  cases args with
  | nil => exact iff_of_false (fun h => by rcases h with h | h <;> cases h) fun h => h rfl
  | cons path args => exact iff_of_true trivial (List.cons_ne_nil path args)

theorem allowed_filePath {args : List Text} : Allowed IsRejection (filePath sys keys args) ↔
    ∀ pid, keys.ints (ascii "attach-pid") = some pid →
      pid = 0 ∨ sys.host.fileExists (sys.host.realPath (procPath (printSigned pid))) = false →
      args ≠ [] := by
  rw [filePath, allowed_bind, and_iff_right (allowed_keyAsInt _)]
  refine forall_congr' fun pid => imp_congr keyAsInt_eq_ok ?_
  by_cases hpid : pid = 0
  · rw [if_pos hpid, allowed_inFile]
    simp [hpid]
  · rw [if_neg hpid]
    dsimp only
    cases sys.host.fileExists (sys.host.realPath (procPath (printSigned pid))) with
    | true => exact iff_of_true trivial fun h => absurd (h.resolve_right (by decide)) hpid
    | false =>
      rw [if_neg Bool.false_ne_true, allowed_inFile]
      simp

/-- Behind the path of the file nothing is converted. -/
theorem allowed_setupProgram (outArgument : Text) {args : List Text} :
    Allowed IsRejection (setupProgram sys keys outArgument args) ↔
      Allowed IsRejection (filePath sys keys args) := by
  rw [setupProgram, allowed_bind]
  refine and_iff_left fun path _ => ?_
  rw [allowed_bind]
  refine ⟨allowed_keyAsInt _, fun coberturaOnly _ => ?_⟩
  rw [allowed_bind]
  refine ⟨allowed_keyAsInt _, fun runningMode _ => ?_⟩
  split
  · exact Or.inl rfl
  · rw [allowed_bind]
    refine ⟨allowed_keyAsString _, fun commandName _ => ?_⟩
    split <;> trivial

theorem allowed_setupPaths (outArgument : Text) {args : List Text} :
    Allowed IsRejection (setupPaths sys keys outArgument args) ↔
      ∀ mode pid, keys.ints (ascii "running-mode") = some mode →
        keys.ints (ascii "attach-pid") = some pid → mode ≠ RunMode.mergeOnly.value →
        pid = 0 ∨ sys.host.fileExists (sys.host.realPath (procPath (printSigned pid))) = false →
        args ≠ [] := by
  rw [setupPaths, allowed_bind, and_iff_right (allowed_keyAsInt _)]
  constructor
  · intro h mode pid hmode hpid hmerge hfile
    have hprogram := h mode (keyAsInt_eq_ok.mpr hmode)
    rw [if_neg hmerge, allowed_setupProgram, allowed_filePath] at hprogram
    exact hprogram pid hpid hfile
  · intro h mode hmode
    split
    · trivial
    next hmerge =>
      rw [allowed_setupProgram, allowed_filePath]
      exact fun pid hpid => h mode pid (keyAsInt_eq_ok.mp hmode) hpid hmerge

theorem allowed_finish {args : List Text} :
    Allowed IsRejection (finish sys s args) ↔ FileNamed sys s args := by
  unfold finish FileNamed
  cases s.printUsage with
  | true => exact iff_of_true (Or.inl rfl) fun h => by cases h
  | false =>
    rw [if_neg Bool.false_ne_true]
    by_cases hfew : args.length < s.extraNeeded
    · rw [if_pos hfew]
      exact iff_of_true (Or.inl rfl) fun _ hmany => absurd hfew (Nat.not_lt.mpr hmany)
    · rw [if_neg hfew]
      cases args with
      | nil =>
        have hneeded : 0 < s.extraNeeded := by
          rw [ParseState.extraNeeded]
          split <;> decide
        exact absurd hneeded hfew
      | cons outArgument programArgs =>
        have hlength : 2 ≤ (outArgument :: programArgs).length ↔ programArgs ≠ [] := by
          cases programArgs <;> simp
        simp only [hlength]
        rw [allowed_bind, allowed_setupPaths]
        refine (and_iff_left fun keys _ => trivial).trans ?_
        exact ⟨fun h _ _ => h, fun h => h trivial (Nat.le_of_not_lt hfew)⟩

end Arguments

/-- A command line is accepted, or rejected through `usage` or a panic, exactly if the numbers that
are looked at can be converted and it is otherwise safe. -/
theorem allowed_parse_iff (sys : System) (program : Text) (args : List Text) :
    Allowed IsRejection (parse sys program args) ↔ SafeArguments sys program args := by
  have hneeds : HasArguments needsArgument (getoptLong longOptions shortOptions args).1 :=
    hasArguments_getoptLong (by decide) (by decide) args
  have hoptions : Allowed IsRejection ((getoptLong longOptions shortOptions args).1.foldlM
      (handle sys) (.start sys program)) ↔
      AllSteps (fun pre found => ∀ s, pre.foldlM (handle sys) (.start sys program) = .ok s →
        SafeOption sys s found) (getoptLong longOptions shortOptions args).1 := by
    rw [allowed_foldlM]
    refine forall_congr' fun pre => forall_congr' fun found => forall_congr' fun hpre =>
      forall_congr' fun s => imp_congr_right fun _ => ?_
    refine allowed_handle fun o ho => hneeds o (ho ▸ hpre.subset ?_)
    simp
  rw [parse, allowed_bind, hoptions]
  constructor
  · rintro ⟨hsafe, hfile⟩
    exact ⟨hsafe, fun s hs => allowed_finish.mp (hfile s hs)⟩
  · intro h
    exact ⟨h.options, fun s hs => allowed_finish.mpr (h.file s hs)⟩

/-- A system without files. -/
def System.bare : System where
  host := Host.bare
  realpath _ := false
  home := none
  lookPath _ := none
  parserType _ := none

/-- A process id of twenty digits. -/
theorem not_allowed_parse_pid : ¬Allowed IsRejection (parse .bare (ascii "kcov")
    [ascii "--pid=99999999999999999999", ascii "/tmp/out", ascii "prog"]) := by
  have hthrown : parse .bare (ascii "kcov")
      [ascii "--pid=99999999999999999999", ascii "/tmp/out", ascii "prog"] =
      .error (.thrown .outOfRange) := by
    rfl
  rw [hthrown]
  rintro (h | h) <;> cases h

/-- The values of two keys are converted without a check. -/
example : parse .bare (ascii "kcov")
    [ascii "--configure=lldb-use-raw-breakpoint-writes=on", ascii "/tmp/out", ascii "prog"] =
    .error (.thrown .invalidArgument) := rfl

end Kcov.CommandLine
