import Kcov.Filter

/-! The lines of a report: the addresses of a line with their hit counts, and the lines of a file. -/

namespace Kcov

open Bytes

abbrev U32 := BitVec 32
abbrev U64 := BitVec 64

-- Named once: membership in a list of addresses is decided through it in many definitions.
instance : LawfulBEq U64 := inferInstance

/-- `Reporter::Line`. The hit counts are `int`s. -/
structure Line where
  addrs : List (U64 × U32)
  lineId : U64
  order : U64
  unreachable : Bool
  deriving DecidableEq, Repr

namespace Line

/-- The number that identifies a line across runs. -/
def makeId (fileHash : U64) (lineNr : U32) : U64 := (fileHash <<< 32) ||| lineNr.setWidth 64

def new (fileHash : U64) (lineNr : U32) (unreachable : Bool) : Line :=
  { addrs := [], lineId := makeId fileHash lineNr, order := 0, unreachable }

def addAddress (l : Line) (addr : U64) : Line :=
  if addr ∈ l.addrs.map Prod.fst then l else { l with addrs := l.addrs ++ [(addr, 0)] }

/-- The loop of `registerHit`, which changes the first count of `addr` or adds one last. -/
def updateFirst (addr : U64) (count : U32 → U32) : List (U64 × U32) → List (U64 × U32)
  | [] => [(addr, count 0)]
  | p :: ps => if p.1 = addr then (addr, count p.2) :: ps else p :: updateFirst addr count ps

def registerHit (l : Line) (addr hits : U64) (singleShot : Bool) : Line :=
  let count := fun c : U32 => if singleShot then 1 else c + hits.setWidth 32
  { l with addrs := updateFirst addr count l.addrs }

def registerHitIndex (l : Line) (index hits : U64) : Line :=
  if l.addrs.length ≤ index.toNat then l
  else
    { l with addrs := l.addrs.modify index.toNat fun p => (p.1, p.2 + hits.setWidth 32) }

def hits (l : Line) : U32 := l.addrs.foldl (fun out p => out + p.2) 0

def possibleHits (l : Line) (singleShot : Bool) : U32 :=
  if singleShot then BitVec.ofNat 32 l.addrs.length else 0

end Line

/-- `Reporter::File`. -/
structure File where
  fileHash : U64
  lines : List (Option Line)
  nrLines : U32

namespace File

def new (fileHash : U64) : File := { fileHash, lines := [], nrLines := 0 }

/-- `addLine`, or `none` where it writes outside the vector: `lineNr + 1` is computed in 32
bits. -/
def addLine (f : File) (lineNr : U32) (line : Line) : Option File :=
  let size := (lineNr + 1).toNat
  let lines := if f.lines.length ≤ lineNr.toNat
    then f.lines.take size ++ List.replicate (size - f.lines.length) none else f.lines
  if lineNr.toNat < lines.length then
    some { f with
      lines := lines.set lineNr.toNat (some line)
      nrLines := if line.unreachable then f.nrLines else f.nrLines + 1 }
  else none

def getLine (f : File) (lineNr : U32) : Option Line := f.lines[lineNr.toNat]?.join

def lineIsCode (f : File) (lineNr : U32) : Bool :=
  match f.getLine lineNr with
  | none => false
  | some line => !line.unreachable

def getExecutedLines (f : File) : U32 :=
  f.lines.reduceOption.foldl
    (fun out line => if !line.unreachable && line.hits != 0 then out + 1 else out) 0

/-- The file with the line at `lineNr` changed in place. -/
def modifyLine (f : File) (lineNr : U32) (g : Line → Line) : File :=
  { f with lines := f.lines.modify lineNr.toNat (Option.map g) }

end File

/-! ### Facts about lines -/

namespace Line

variable {l : Line} {addr hits index : U64} {singleShot : Bool}

/-- The addresses of a line, in the order in which they were added. -/
def addresses (l : Line) : List U64 := l.addrs.map Prod.fst

@[simp] theorem lineId_addAddress : (l.addAddress addr).lineId = l.lineId := by
  rw [addAddress]
  split <;> rfl

@[simp] theorem unreachable_addAddress : (l.addAddress addr).unreachable = l.unreachable := by
  rw [addAddress]
  split <;> rfl

@[simp] theorem lineId_registerHitIndex : (l.registerHitIndex index hits).lineId = l.lineId := by
  rw [registerHitIndex]
  split <;> rfl

@[simp] theorem unreachable_registerHitIndex :
    (l.registerHitIndex index hits).unreachable = l.unreachable := by
  rw [registerHitIndex]
  split <;> rfl

theorem addresses_addAddress : (l.addAddress addr).addresses =
    if addr ∈ l.addresses then l.addresses else l.addresses ++ [addr] := by
  rw [addAddress, addresses]
  split <;> simp_all [addresses]

theorem mem_addresses_addAddress : addr ∈ (l.addAddress addr).addresses := by
  rw [addresses_addAddress]
  split
  next h => exact h
  next => simp

theorem mem_addresses_addAddress_of_mem {a : U64} (h : a ∈ l.addresses) :
    a ∈ (l.addAddress addr).addresses := by
  rw [addresses_addAddress]
  split
  next => exact h
  next => exact List.mem_append_left _ h

theorem nodup_addAddress (h : l.addresses.Nodup) : (l.addAddress addr).addresses.Nodup := by
  rw [addresses_addAddress]
  split
  next => exact h
  next hnew => exact List.nodup_append.mpr ⟨h, by simp, by aesop⟩

theorem map_fst_updateFirst {count : U32 → U32} {ps : List (U64 × U32)}
    (h : addr ∈ ps.map Prod.fst) : (updateFirst addr count ps).map Prod.fst = ps.map Prod.fst := by
  induction ps with
  | nil => simp at h
  | cons p ps ih =>
    rw [updateFirst]
    split
    next hp => simp [hp]
    next hp =>
      rw [List.map_cons, List.map_cons, ih (by simpa [Ne.symm hp] using h)]

theorem addresses_registerHit (hits : U64) (singleShot : Bool) (h : addr ∈ l.addresses) :
    (l.registerHit addr hits singleShot).addresses = l.addresses := map_fst_updateFirst h

theorem addresses_registerHitIndex : (l.registerHitIndex index hits).addresses = l.addresses := by
  rw [registerHitIndex]
  split
  next => rfl
  next =>
    apply List.ext_getElem?
    intro i
    simp only [addresses, List.getElem?_map, List.getElem?_modify]
    by_cases hi : index.toNat = i
    · simp only [hi, if_true]
      cases l.addrs[i]? <;> rfl
    · simp only [hi, if_false]
      cases l.addrs[i]? <;> rfl

end Line

end Kcov
