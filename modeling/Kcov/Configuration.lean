import Kcov.Utils

/-! The key store of the configuration: one map for each type of value, and a `setKey` for each. -/

namespace Kcov

open Bytes

/-- The keys that the modelled functions read or write. -/
inductive Key where
  | includePattern
  | excludePattern
  | includePath
  | excludePath
  | excludeLine
  | excludeRegion
  | origPathPrefix
  | newPathPrefix
  | binaryName
  | binaryPath
  | outDirectory
  | targetDirectory
  | systemModeReadResultsFile
  | cleanOutput
  deriving DecidableEq, Repr

structure Configuration where
  strings : Key → Option Text
  ints : Key → Option Int
  stringVectors : Key → Option (List Text)

namespace Configuration

/-- `none` where the source panics because the key is not found. -/
def keyAsString (conf : Configuration) (key : Key) : Option Text := conf.strings key

def keyAsList (conf : Configuration) (key : Key) : Option (List Text) := conf.stringVectors key

/-- `setKey(const std::string &, const std::string &)`. -/
def setKeyString (conf : Configuration) (key : Key) (val : Text) : Configuration :=
  { conf with strings := Function.update conf.strings key (some val) }

/-- `setKey(const std::string &, int)`. -/
def setKeyInt (conf : Configuration) (key : Key) (val : Int) : Configuration :=
  { conf with ints := Function.update conf.ints key (some val) }

/-- `setKey(const std::string &, const std::vector<std::string> &)`. -/
def setKeyList (conf : Configuration) (key : Key) (val : List Text) : Configuration :=
  { conf with stringVectors := Function.update conf.stringVectors key (some val) }

def empty : Configuration :=
  { strings := fun _ => none, ints := fun _ => none, stringVectors := fun _ => none }

/-- The part of `setupDefaults` that is about the modelled keys. -/
def setupDefaults : Configuration :=
  empty |>.setKeyString .binaryPath []
    |>.setKeyInt .cleanOutput 0
    |>.setKeyString .excludeLine []
    |>.setKeyString .excludeRegion []
    |>.setKeyString .origPathPrefix []
    |>.setKeyString .newPathPrefix []
    |>.setKeyList .excludePattern []
    |>.setKeyList .includePattern []
    |>.setKeyList .excludePath []
    |>.setKeyList .includePath []
    |>.setKeyString .systemModeReadResultsFile []

@[simp] theorem keyAsString_empty (key : Key) : empty.keyAsString key = none := rfl

@[simp] theorem keyAsList_empty (key : Key) : empty.keyAsList key = none := rfl

section SetKey

variable (conf : Configuration) (key k : Key)

@[simp] theorem keyAsString_setKeyString (val : Text) :
    (conf.setKeyString key val).keyAsString k = if k = key then some val else conf.keyAsString k :=
  Function.update_apply conf.strings key (some val) k

@[simp] theorem keyAsList_setKeyString (val : Text) :
    (conf.setKeyString key val).keyAsList k = conf.keyAsList k := rfl

@[simp] theorem keyAsString_setKeyInt (val : Int) :
    (conf.setKeyInt key val).keyAsString k = conf.keyAsString k := rfl

@[simp] theorem keyAsList_setKeyInt (val : Int) :
    (conf.setKeyInt key val).keyAsList k = conf.keyAsList k := rfl

@[simp] theorem keyAsString_setKeyList (val : List Text) :
    (conf.setKeyList key val).keyAsString k = conf.keyAsString k := rfl

@[simp] theorem keyAsList_setKeyList (val : List Text) :
    (conf.setKeyList key val).keyAsList k = if k = key then some val else conf.keyAsList k :=
  Function.update_apply conf.stringVectors key (some val) k

end SetKey

/-! ### Configurations that a command line can produce -/

/-- A string from the command line ends at its first zero byte. -/
structure Argument where
  text : Text
  noNul : 0 ∉ text

/-- A call of one of the `setKey` functions while the command line is parsed. -/
inductive Setting where
  | string (key : Key) (val : Argument)
  | int (key : Key) (val : Int)
  | list (key : Key) (val : List Argument)

def apply (conf : Configuration) : Setting → Configuration
  | .string key val => conf.setKeyString key val.text
  | .int key val => conf.setKeyInt key val
  | .list key val => conf.setKeyList key (val.map Argument.text)

/-- The configuration in force after `parse`: the defaults, the settings of the command line, and
the output directory, which is not optional. -/
def ofCommandLine (settings : List Setting) (outDirectory : Argument) : Configuration :=
  (settings.foldl apply setupDefaults).apply (.string .outDirectory outDirectory)

def filterLists : List Key := [.includePattern, .excludePattern, .includePath, .excludePath]

def filterStrings : List Key := [.excludeLine, .excludeRegion]

/-- No filter key is missing and no value of one has a zero byte. -/
structure Complete (conf : Configuration) : Prop where
  strings : ∀ key ∈ filterStrings ++ [.origPathPrefix, .newPathPrefix],
    ∃ s, conf.keyAsString key = some s ∧ 0 ∉ s
  lists : ∀ key ∈ filterLists, ∃ l, conf.keyAsList key = some l ∧ ∀ s ∈ l, 0 ∉ s

theorem complete_setupDefaults : setupDefaults.Complete := by
  constructor <;> simp [setupDefaults, filterStrings, filterLists]

theorem complete_apply {conf : Configuration} (h : conf.Complete) (setting : Setting) :
    (conf.apply setting).Complete := by
  cases setting with
  | string key val =>
    refine ⟨fun k hk => ?_, h.lists⟩
    rw [apply, keyAsString_setKeyString]
    split
    · exact ⟨_, rfl, val.noNul⟩
    · exact h.strings k hk
  | int key val => exact ⟨h.strings, h.lists⟩
  | list key val =>
    refine ⟨h.strings, fun k hk => ?_⟩
    rw [apply, keyAsList_setKeyList]
    split
    · exact ⟨_, rfl, List.forall_mem_map.mpr fun a _ => a.noNul⟩
    · exact h.lists k hk

theorem complete_ofCommandLine (settings : List Setting) (outDirectory : Argument) :
    (ofCommandLine settings outDirectory).Complete := by
  have hfold : ∀ conf : Configuration, conf.Complete → (settings.foldl apply conf).Complete := by
    induction settings with
    | nil => exact fun _ h => h
    | cons setting settings ih => exact fun conf h => ih _ (complete_apply h setting)
  exact complete_apply (hfold _ complete_setupDefaults) _

theorem keyAsString_outDirectory (settings : List Setting) (outDirectory : Argument) :
    (ofCommandLine settings outDirectory).keyAsString .outDirectory = some outDirectory.text := by
  simp [ofCommandLine, apply]

end Configuration

end Kcov
