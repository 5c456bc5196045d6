import Kcov.Collector
import Kcov.Reporter.Compiled
import Kcov.SystemMode.Stops

/-! The whole way of a program through the system mode: its lines are recorded in a processed file,
the daemon traces its processes, and a report is made of the file that the daemon has written. -/

namespace Kcov.SystemMode

open Bytes OutputState

/-- `m_indexToAddress` when the lines have been found: the collector registers those that pass the
filters. -/
def registered (runFilters : Text → Bool) (lines : List Reporter.Event) : List U64 :=
  SystemModeEngine.registerBreakpoints (lines.filterMap fun
    | .line file _ addr => if runFilters file then some addr else none
    | _ => none)

/-- `handleWriter`, without `patchelf`: the contents of the file that is written. -/
def handleWriter (host : Endian) (checksum : BitVec 32) (filename options raw : List Byte)
    (indexToAddress : List U64) : Option (List Byte) := do
  let sysFile ← fromRawFile checksum filename (cString options) raw
  let sysFile ← sysFile.addEntries
    (indexToAddress.zipIdx.map fun (addr, idx) => (BitVec.ofNat 32 idx, addr))
  sysFile.getProcessedData host

/-- The file that the output thread writes for the memory `m` when `words` are those of its
bitmap. -/
def savedFile (host : Endian) (junk : Nat → Byte) (m : SystemModeMemory) (words : List (BitVec 32)) :
    Option (List Byte) :=
  if h : words.length = m.nEntries.toNat then
    memoryToFile host junk { m with data := words, size := h }
  else none

/-- The events of `continueExecution` that reads results. -/
def readEvents (addrs : List U64) : List (EngineEvent U64) :=
  addrs.map (⟨.breakpoint, 0, ·⟩) ++ [⟨.exit, 0, 0⟩]

/-- The report of the file `file`: the lines are found, then the collector runs. -/
def reportFile (host : Endian) (daemonize : Bool) (runFilters : Text → Bool)
    (lines : List Reporter.Event) (file : List Byte) : Option (Collector × List Reporter.Event) := do
  let addrs ← SystemModeEngine.readResults host (registered runFilters lines) file
  return (readEvents addrs).foldl (fun (c, calls) ev =>
    let (c, new) := c.onEvent daemonize ev
    (c, calls ++ new)) (Collector.create, lines)

/-! ### Recording -/

/-- The sizes at which the processed file of a program can be read again. -/
structure Recordable (filename options : List Byte) (addrs : List U64) : Prop where
  noNul : 0 ∉ filename
  notEmpty : addrs ≠ []
  count : addrs.length < 65536
  filenameSize : filename.length < 2 ^ 31
  optionsSize : padTo8 ((cString options).length + 1) < 2 ^ 32
  terminator : padTo8 (filename.length + 1) ≤
    padTo8 ((cString options).length + 1) + 8 * addrs.length + sizeofTrailer

section Recording

variable {host : Endian} {checksum : BitVec 32} {filename options raw processed : List Byte}
  {addrs : List U64}

theorem addEntries_zipIdx (f : SystemModeFile) (hf : f.entries = []) (hcount : addrs.length < 2 ^ 32) :
    f.addEntries (addrs.zipIdx.map fun (addr, idx) => (BitVec.ofNat 32 idx, addr)) =
      some { f with entries := addrs } := by
  induction addrs using List.reverseRecOn with
  | nil =>
    cases f
    subst hf
    rfl
  | append_singleton addrs a ih =>
    rw [List.length_append, List.length_singleton] at hcount
    have hlast : f.addEntries ((addrs ++ [a]).zipIdx.map fun (addr, idx) =>
        (BitVec.ofNat 32 idx, addr)) =
        (f.addEntries (addrs.zipIdx.map fun (addr, idx) => (BitVec.ofNat 32 idx, addr))).bind
          fun g => g.addEntry (BitVec.ofNat 32 addrs.length) a := by
      rw [SystemModeFile.addEntries, List.zipIdx_append, List.map_append, List.foldlM_append]
      simp [SystemModeFile.addEntries]
    rw [hlast, ih (by omega), Option.bind_some, addEntry_next _ _ rfl hcount]

/-- The file that is written parses to what was recorded. -/
theorem fromProcessedFile_handleWriter (h : Recordable filename options addrs) {base : Nat}
    (hbase : base % 8 = 0)
    (hwrite : handleWriter host checksum filename options raw addrs = some processed) :
    ∃ f, fromProcessedFile host base processed = .ok f ∧ f.filename = filename ∧
      f.options = cString options ∧ f.entries = addrs := by
  simp only [handleWriter, Option.bind_eq_bind, Option.bind_eq_some_iff] at hwrite
  obtain ⟨f, hraw, g, hadd, hdata⟩ := hwrite
  obtain ⟨-, hf⟩ := Option.ite_none_left_eq_some.mp hraw
  obtain rfl := Option.some.inj hf
  rw [addEntries_zipIdx _ rfl (h.count.trans (by decide)), Option.some.injEq] at hadd
  have hname : padTo8 (filename.length + 1) < 2 ^ 32 := by
    have hpad := padTo8_lt (filename.length + 1)
    have hsize := h.filenameSize
    omega
  subst hadd
  have hfit : SystemModeFile.Fits
      { filename, options := cString options, id := checksum, data := raw, entries := addrs } :=
    ⟨h.count, hname, h.optionsSize, h.terminator⟩
  rw [getProcessedData_eq_image host hfit h.notEmpty h.noNul (zero_notMem_cString options),
    Option.some.injEq] at hdata
  subst hdata
  exact ⟨_, fromProcessedFile_image host hbase hfit h.noNul (zero_notMem_cString options),
    rfl, rfl, rfl⟩

end Recording

/-! ### The file of the daemon -/

section Saved

variable {host : Endian} {junk : Nat → Byte} {m : SystemModeMemory} {words : List (BitVec 32)}

/-- A file with all words of the bitmap is read back. -/
theorem fileToMemory_savedFile (hlen : words.length = m.nEntries.toNat)
    (hn : m.nEntries.toNat < 65536) (hname : m.filename.length < 2 ^ 31) :
    ∃ file results, savedFile host junk m words = some file ∧ fileToMemory host file = .ok results ∧
      results.filename = cString m.filename ∧ results.options = cString m.options ∧
      results.nEntries = m.nEntries ∧ ∀ index, results.indexIsHit index =
        bitAt words (index / 32).toNat (index % 32).toNat := by
  rw [savedFile, dif_pos hlen]
  generalize hout : ({ m with data := words, size := hlen } : SystemModeMemory) = out
  have hN : nameOffset out = 24 + m.nEntries.toNat * 4 := by
    rw [← hout]
    rfl
  have hO : optionsOffset out = 24 + m.nEntries.toNat * 4 + m.filename.length + 1 := by
    rw [optionsOffset, hN, ← hout]
  obtain ⟨file, hfile, himage⟩ := @memoryToFile_image host junk out (by omega)
    (by unfold sizeofSystemModeFile; omega)
  obtain ⟨results, hresults, hback⟩ := himage.fileToMemory (by omega)
  refine ⟨file, results, hfile, hresults, ?_, ?_, ?_, fun index => ?_⟩
  · rw [hback.filename, ← hout]
  · rw [hback.options, ← hout]
  · rw [hback.nEntries, ← hout]
  · rw [hback.indexIsHit, SystemModeMemory.indexIsHit_eq_bitAt, ← hout]

end Saved

/-! ### Reporting -/

section Reporting

variable {cfg : ReporterSetup} {ref : LineRef} {lines : List Reporter.Event} {a : U64}

theorem registered_eq (runFilters : Text → Bool) (lines : List Reporter.Event) :
    registered runFilters lines = lines.filterMap fun
      | .line file _ addr => if runFilters file then some addr else none
      | _ => none := SystemModeEngine.registerBreakpoints_eq _

/-- The addresses of a line are registered with the engine. -/
theorem mem_registered (h : a ∈ Reporter.addressesOf cfg ref lines) :
    a ∈ registered cfg.runFilters lines := by
  rw [registered_eq]
  induction lines using List.reverseRecOn with
  | nil => cases h
  | append_singleton lines ev ih =>
    rw [Reporter.addressesOf_snoc] at h
    rw [List.filterMap_append, List.mem_append]
    cases ev with
    | line f n b =>
      rw [Reporter.addAddressOf] at h
      split at h
      next hreg =>
        refine (List.mem_append.mp h).imp ih fun hb => ?_
        simp only [Reporter.registers, Bool.and_eq_true, decide_eq_true_eq] at hreg
        obtain ⟨⟨⟨hfilter, -⟩, -⟩, -⟩ := hreg
        rw [List.mem_filterMap]
        exact ⟨_, List.mem_cons_self, by simp [hfilter, List.mem_singleton.mp hb]⟩
      next => exact Or.inl (ih h)
    | _ => exact Or.inl (ih h)

/-- The collector passes the breakpoints on to the reporter, and ends with the exit code 0. -/
theorem foldl_readEvents (daemonize : Bool) (lines : List Reporter.Event) (addrs : List U64) :
    (readEvents addrs).foldl (fun (c, calls) ev =>
      let (c, new) := Collector.onEvent daemonize c ev
      (c, calls ++ new)) (Collector.create, lines) =
    ({ Collector.create with exitCode := 0 }, lines ++ addrs.map (.hit · 1)) := by
  have hbreakpoints : ∀ (addrs : List U64) (calls : List Reporter.Event),
      (addrs.map fun a => (⟨.breakpoint, 0, a⟩ : EngineEvent U64)).foldl (fun (c, calls) ev =>
        let (c, new) := Collector.onEvent daemonize c ev
        (c, calls ++ new)) (Collector.create, calls) =
      (Collector.create, calls ++ addrs.map (.hit · 1)) := by
    intro addrs
    induction addrs with
    | nil => exact fun calls => by simp
    | cons a addrs ih =>
      intro calls
      rw [List.map_cons, List.foldl_cons, List.map_cons, ← List.singleton_append,
        ← List.append_assoc]
      exact ih _
  rw [readEvents, List.foldl_append, hbreakpoints]
  simp [Collector.onEvent, Collector.create]

theorem hitAddressesOf_lines (hlines : ∀ ev ∈ lines, Reporter.isLine ev = true) :
    Reporter.hitAddressesOf cfg ref lines = [] := by
  induction lines using List.reverseRecOn with
  | nil => rfl
  | append_singleton lines ev ih =>
    have hline := hlines ev (by simp)
    rw [Reporter.hitAddressesOf_snoc fun b hits hev => by rw [hev] at hline; cases hline]
    exact ih fun ev hev => hlines ev (List.mem_append_left _ hev)

/-- The hits behind the lines count for the lines that have their address. -/
theorem mem_hitAddressesOf_hits (hlines : ∀ ev ∈ lines, Reporter.isLine ev = true) (hits : List U64) :
    a ∈ Reporter.hitAddressesOf cfg ref (lines ++ hits.map (.hit · 1)) ↔
      a ∈ Reporter.addressesOf cfg ref lines ∧ a ∈ hits := by
  have haddresses : ∀ hits : List U64, Reporter.addressesOf cfg ref (lines ++ hits.map (.hit · 1)) =
      Reporter.addressesOf cfg ref lines := by
    intro hits
    induction hits using List.reverseRecOn with
    | nil => rw [List.map_nil, List.append_nil]
    | append_singleton hits b ih =>
      rw [List.map_append, List.map_singleton, ← List.append_assoc, Reporter.addressesOf_snoc]
      exact ih
  induction hits using List.reverseRecOn with
  | nil =>
    rw [List.map_nil, List.append_nil, hitAddressesOf_lines hlines]
    simp
  | append_singleton hits b ih =>
    rw [List.map_append, List.map_singleton, ← List.append_assoc, Reporter.mem_hitAddressesOf_hit,
      haddresses, List.mem_append, List.mem_singleton, and_or_left]
    exact or_congr ih ⟨fun ⟨ha, hb⟩ => ⟨ha ▸ hb, ha⟩, fun ⟨hb, ha⟩ => ⟨ha, ha ▸ hb⟩⟩

/-- The report of the addresses `out` counts for each line those of its addresses that it has. -/
theorem reportFile_hits {host : Endian} (hmax : cfg.maxPossibleHits ≠ .unlimited)
    (hlines : ∀ ev ∈ lines, Reporter.isLine ev = true) (hids : Reporter.SharersDistinct cfg lines)
    (hadmits : ∀ ev ∈ lines, Reporter.Admits cfg ev) {file : List Byte} {results : SystemModeMemory}
    {out : List U64} (hread : fileToMemory host file = .ok results)
    (hout : SystemModeEngine.handleReadFile (registered cfg.runFilters lines) results = some out)
    {counted : U64 → Bool}
    (hmem : ∀ a, a ∈ out ↔ a ∈ registered cfg.runFilters lines ∧ counted a = true)
    (daemonize : Bool) :
    ∃ c calls s, reportFile host daemonize cfg.runFilters lines file = some (c, calls) ∧
      c.exitCode = 0 ∧ Reporter.run cfg calls = some s ∧
      ∀ ref, (s.getLineExecutionCount cfg ref.file ref.lineNr).hits =
        if cfg.excluded ref then 0
        else BitVec.ofNat 32 ((Reporter.addressesOf cfg ref lines).filter counted).length := by
  have hreport : reportFile host daemonize cfg.runFilters lines file =
      some ({ Collector.create with exitCode := 0 }, lines ++ out.map (.hit · 1)) := by
    rw [reportFile, SystemModeEngine.readResults, hread]
    simp only [hout]
    exact congrArg some (foldl_readEvents daemonize lines out)
  have hline : ∀ f n a, .line f n a ∈ lines ++ out.map (.hit · 1) → .line f n a ∈ lines := by
    intro f n a hev
    refine (List.mem_append.mp hev).resolve_right fun hhit => ?_
    obtain ⟨b, -, hb⟩ := List.mem_map.mp hhit
    cases hb
  have hfile : Reporter.Event.file ∉ lines ++ out.map (.hit · 1) := by
    rw [List.mem_append, not_or]
    exact ⟨fun hev => absurd (hlines _ hev) Bool.false_ne_true, by simp⟩
  obtain ⟨s, hrun, hcompiled⟩ := Reporter.compiledState_run (decide_eq_true hmax)
    (fun f n g m a hf hg => hids f n g m a (hline f n a hf) (hline g m a hg)) hfile
    (fun ev hev => by
      cases ev with
      | line f n a => exact hadmits _ (hline f n a hev)
      | _ => trivial)
  refine ⟨_, _, s, hreport, rfl, hrun, fun ref => ?_⟩
  have hperm : (Reporter.hitAddressesOf cfg ref (lines ++ out.map (.hit · 1))).Perm
      ((Reporter.addressesOf cfg ref lines).filter counted) := by
    refine (List.perm_ext_iff_of_nodup Reporter.nodup_hitAddressesOf
      (Reporter.nodup_addressesOf.filter _)).mpr fun a => ?_
    rw [mem_hitAddressesOf_hits hlines, hmem, List.mem_filter]
    exact and_congr_right fun ha => and_iff_right (mem_registered ha)
  rw [hcompiled.hits, hperm.length_eq]

end Reporting

/-! ### From the stops to the hits -/

section Ends

variable {programs : Programs} {m : Machine} {id : BitVec 32}

/-- The daemon has nothing left to do for a program: its handlers are not in `reportIndex`, and the
output thread is between two rounds and need not write its memory. -/
structure Settled (s : OutputState) (id : BitVec 32) : Prop where
  thread : s.thread.BetweenRounds
  handlers : ∀ t index, (s.tracers t).call ≠ some (id, index)
  clean : (s.memory id).isDirty = false

/-- Then the bits in the file are those of the indices that were stopped at. -/
theorem file_iff_stoppedAt (hsettled : Settled m.output id) (hfaithful : m.Faithful programs)
    (hbacked : m.output.Backed id) (htracked : m.output.Tracked id) :
    (m.output.files id = none → ∀ index, ¬m.StoppedAt programs id index) ∧
      ∀ words, m.output.files id = some words → words.length = (m.output.memory id).data.length ∧
        ∀ index : BitVec 32, bitAt words (index / 32).toNat (index % 32).toNat = true ↔
          m.StoppedAt programs id index := by
  have hpending : ¬m.output.Pending id := not_pending_iff.mpr ⟨hsettled.clean, fun t index hpc =>
    hsettled.handlers t index (by rw [hpc, TracerPc.call])⟩
  have hdisk : ∀ index, m.StoppedAt programs id index → ∃ file, m.output.files id = some file ∧
      bitAt file (index / 32).toNat (index % 32).toNat = true := by
    intro index hstop
    rcases hfaithful.stopped id index hstop with hhit | ⟨t, ht⟩
    · rw [SystemModeMemory.indexIsHit_eq_bitAt] at hhit
      exact htracked.onDisk hsettled.thread hpending hhit
    · exact absurd ht (hsettled.handlers t index)
  refine ⟨fun hnone index hstop => ?_, fun words hwords => ?_⟩
  · obtain ⟨file, hfile, -⟩ := hdisk index hstop
    rw [hnone] at hfile
    cases hfile
  · obtain ⟨hlen, hbelow⟩ := hbacked.files words hwords fun todo copied hpc => by
      rcases hsettled.thread with h | h | h <;> rw [hpc] at h <;> cases h
    refine ⟨hlen, fun index => ⟨fun hbit => hfaithful.hit id index ?_, fun hstop => ?_⟩⟩
    · rw [SystemModeMemory.indexIsHit_eq_bitAt]
      exact hbelow _ _ hbit
    · obtain ⟨file, hfile, hbit⟩ := hdisk index hstop
      obtain rfl : words = file := Option.some.inj (hwords.symm.trans hfile)
      exact hbit

/-- The addresses that are reported are those of the entries that were stopped at. -/
theorem handleReadFile_stops {addrs : List U64} {results : SystemModeMemory}
    (hprogram : programs id = addrs) (hcount : addrs.length < 65536)
    (hn : results.nEntries.toNat = addrs.length)
    (hhit : ∀ index, results.indexIsHit index = true ↔ m.StoppedAt programs id index) :
    ∃ out, SystemModeEngine.handleReadFile addrs results = some out ∧
      ∀ a, a ∈ out ↔ a ∈ addrs ∧ (id, a) ∈ m.stops := by
  have hplace : ∀ a index, ProcessHandler.attach (programs id) a = some index →
      addrs[index.toNat]? = some a := by
    intro a index hattach
    rw [hprogram] at hattach
    exact getElem?_attach (by omega) hattach
  obtain ⟨out, hout, hmem⟩ := @SystemModeEngine.handleReadFile_eq_some addrs results (by omega)
    fun index hindex => by
      obtain ⟨a, -, hattach⟩ := (hhit index).mp hindex
      exact (List.getElem?_eq_some_iff.mp (hplace a index hattach)).choose
  refine ⟨out, hout, fun a => (hmem a).trans ⟨?_, ?_⟩⟩
  · rintro ⟨index, hindex, ha⟩
    obtain ⟨b, hb, hattach⟩ := (hhit index).mp hindex
    obtain rfl : b = a := Option.some.inj ((hplace b index hattach).symm.trans ha)
    exact ⟨List.mem_of_getElem? ha, hb⟩
  · rintro ⟨ha, hstop⟩
    obtain ⟨index, hattach⟩ := Option.isSome_iff_exists.mp (isSome_attach.mpr ha)
    rw [← hprogram] at hattach
    exact ⟨index, (hhit index).mpr ⟨a, hstop, hattach⟩, hplace a index hattach⟩

/-- The memories that `processOne` creates for the processed files. -/
def Creates (sysFiles : BitVec 32 → SystemModeFile) (new : BitVec 32 → SystemModeMemory) : Prop :=
  ∀ id, SystemModeMemory.new (sysFiles id).filename (sysFiles id).options
    (BitVec.ofNat 32 (sysFiles id).entries.length) = some (new id)

theorem Creates.eq {sysFiles : BitVec 32 → SystemModeFile} {new : BitVec 32 → SystemModeMemory}
    (h : Creates sysFiles new) (id : BitVec 32) : (new id).filename = (sysFiles id).filename ∧
      (new id).options = (sysFiles id).options ∧
      (new id).nEntries = BitVec.ofNat 32 (sysFiles id).entries.length ∧
      ∀ index, (new id).indexIsHit index = false := by
  obtain ⟨hn, -⟩ := Option.ite_none_right_eq_some.mp (h id)
  obtain ⟨m, hm, hrest⟩ := SystemModeMemory.exists_new (sysFiles id).filename (sysFiles id).options hn
  obtain rfl : m = new id := Option.some.inj (hm.symm.trans (h id))
  exact hrest

theorem Creates.roomy {sysFiles : BitVec 32 → SystemModeFile}
    {new : BitVec 32 → SystemModeMemory} (h : Creates sysFiles new)
    (hsizes : ∀ id, (sysFiles id).entries.length < 65536) :
    Machine.Roomy (fun id => (sysFiles id).entries) (start new) := by
  intro id
  have hsize := hsizes id
  refine ⟨hsize.trans (by decide), ?_⟩
  show (new id).nEntries.toNat = (sysFiles id).entries.length
  rw [(h.eq id).2.2.1, BitVec.toNat_ofNat]
  omega

/-- Whatever the processes of a machine do, the report of a program shows for each line how many of
its addresses a process was stopped at, once the daemon has settled. -/
theorem hits_eq_stopped {host : Endian} (junk : Nat → Byte) (cfg : ReporterSetup)
    (hmax : cfg.maxPossibleHits ≠ .unlimited) (daemonize : Bool) {lines : List Reporter.Event}
    (hlines : ∀ ev ∈ lines, Reporter.isLine ev = true) (hids : Reporter.SharersDistinct cfg lines)
    (hadmits : ∀ ev ∈ lines, Reporter.Admits cfg ev) {filename options raw processed : List Byte}
    {id : BitVec 32} (hrecordable : Recordable filename options (registered cfg.runFilters lines))
    (hwrite : handleWriter host id filename options raw (registered cfg.runFilters lines) =
      some processed)
    {base : Nat} (hbase : base % 8 = 0) {patchelf : List Byte → List Byte}
    (hpatchelf : fromProcessedFile host base (patchelf processed) =
      fromProcessedFile host base processed)
    {sysFiles : BitVec 32 → SystemModeFile}
    (hparsed : ∀ id, ∃ base data, fromProcessedFile host base data = .ok (sysFiles id))
    (hload : fromProcessedFile host base (patchelf processed) = .ok (sysFiles id))
    {new : BitVec 32 → SystemModeMemory} (hnew : Creates sysFiles new) (hs : List Happening)
    (hcount : (Machine.run (fun id => (sysFiles id).entries) new hs).output.increments id < 2 ^ 32)
    (hsettled : Settled (Machine.run (fun id => (sysFiles id).entries) new hs).output id) :
    ((Machine.run (fun id => (sysFiles id).entries) new hs).output.files id = none →
      ∀ a ∈ registered cfg.runFilters lines,
        (id, a) ∉ (Machine.run (fun id => (sysFiles id).entries) new hs).stops) ∧
    ∀ words, (Machine.run (fun id => (sysFiles id).entries) new hs).output.files id = some words →
      ∃ file results c calls s,
        savedFile host junk ((Machine.run (fun id => (sysFiles id).entries) new hs).output.memory id)
          words = some file ∧
        fileToMemory host file = .ok results ∧ results.filename = filename ∧
        results.options = cString options ∧
        reportFile host daemonize cfg.runFilters lines file = some (c, calls) ∧ c.exitCode = 0 ∧
        Reporter.run cfg calls = some s ∧
        ∀ ref, (s.getLineExecutionCount cfg ref.file ref.lineNr).hits =
          if cfg.excluded ref then 0
          else BitVec.ofNat 32 ((Reporter.addressesOf cfg ref lines).filter fun a =>
            (Machine.run (fun id => (sysFiles id).entries) new hs).stops.contains (id, a)).length := by
  generalize hm : Machine.run (fun id => (sysFiles id).entries) new hs = m at *
  obtain ⟨f, hf, hfilename, hoptions, hentries⟩ :=
    fromProcessedFile_handleWriter hrecordable hbase hwrite
  obtain rfl : f = sysFiles id := Except.ok.inj (hf.symm.trans (hpatchelf.symm.trans hload))
  have hroomy : Machine.Roomy (fun id => (sysFiles id).entries) (start new) :=
    hnew.roomy fun id => by
      obtain ⟨base, data, hdata⟩ := hparsed id
      exact (fromProcessedFile_sizes hdata).1
  have hkept : Kept (start new) m.output := hm ▸ Machine.kept_run hs
  have hfaithful : m.Faithful fun id => (sysFiles id).entries :=
    hm ▸ Machine.faithful_run hroomy (fun id => (hnew.eq id).2.2.2) hs
  have hbacked : m.output.Backed id := hm ▸ Machine.backed_run hs id
  have htracked : m.output.Tracked id := by
    obtain ⟨evs, hevs⟩ := Machine.exists_run (fun id => (sysFiles id).entries) new hs
    rw [hm] at hevs
    rw [hevs] at hcount ⊢
    exact tracked_run (fun id => ⟨_, _, _, hnew id⟩) evs hcount
  obtain ⟨hnone, hsome⟩ := file_iff_stoppedAt hsettled hfaithful hbacked htracked
  refine ⟨fun hfile a ha hstop => ?_, fun words hfile => ?_⟩
  · rw [← hentries] at ha
    obtain ⟨index, hattach⟩ := Option.isSome_iff_exists.mp (isSome_attach.mpr ha)
    exact hnone hfile index ⟨a, hstop, hattach⟩
  · obtain ⟨hlen, hbits⟩ := hsome words hfile
    have hn : (m.output.memory id).nEntries.toNat = (registered cfg.runFilters lines).length := by
      rw [hkept.nEntries, ← hentries]
      exact (hroomy id).2
    have hname : (m.output.memory id).filename = filename :=
      (hkept.filename id).trans ((hnew.eq id).1.trans hfilename)
    have hopts : (m.output.memory id).options = cString options :=
      (hkept.options id).trans ((hnew.eq id).2.1.trans hoptions)
    obtain ⟨file, results, hsaved, hread, hfn, hos, hnr, hhit⟩ :=
      @fileToMemory_savedFile host junk (m.output.memory id) words
        (hlen.trans (m.output.memory id).size) (by rw [hn]; exact hrecordable.count)
        (by rw [hname]; exact hrecordable.filenameSize)
    obtain ⟨out, hout, hmem⟩ := @handleReadFile_stops (fun id => (sysFiles id).entries) m id _ results
      hentries hrecordable.count (by rw [hnr]; exact hn) fun index => by rw [hhit]; exact hbits index
    obtain ⟨c, calls, s, hreport, hexit, hrun, hhits⟩ := @reportFile_hits cfg lines host hmax hlines
      hids hadmits file results out hread hout (fun a => m.stops.contains (id, a))
      (fun a => (hmem a).trans (and_congr_right fun _ => List.contains_iff_mem.symm)) daemonize
    refine ⟨file, results, c, calls, s, hsaved, hread, hfn.trans ?_, hos.trans ?_, hreport, hexit,
      hrun, hhits⟩
    · rw [hname, cString_eq_self hrecordable.noNul]
    · rw [hopts, cString_eq_self (zero_notMem_cString options)]

/-- A program with two lines. -/
def twoLines : List Reporter.Event :=
  [.line (ascii "main.c") 3 0x1000, .line (ascii "main.c") 4 0x2000]

/-- Its memory when it is created. -/
def twoWords : SystemModeMemory :=
  { filename := ascii "/a"
    options := ascii " "
    nEntries := 2
    data := [0, 0]
    dirtyCount := 0
    cleanCount := 0
    size := rfl }

/-- A process stops at the second line, and then the output thread makes a round. -/
def stopAtSecond : List Happening :=
  [.create 7, .event 0 7 ⟨.breakpoint, 0, 0x2000⟩] ++ List.replicate 4 (.tracer 0) ++
    List.replicate 14 (.output [7])

theorem settled_stopAtSecond :
    Settled (Machine.run (fun _ => [0x1000, 0x2000]) (fun _ => twoWords) stopAtSecond).output 7 := by
  refine ⟨Or.inl (by decide), fun t index hcall => ?_, by decide⟩
  cases t with
  | zero => cases hcall
  | succ t => cases hcall

theorem hits_eq_stopped_second :
    ∃ words file c calls s,
      (Machine.run (fun _ => [0x1000, 0x2000]) (fun _ => twoWords) stopAtSecond).output.files 7 =
        some words ∧
      savedFile .little (fun _ => 0)
        ((Machine.run (fun _ => [0x1000, 0x2000]) (fun _ => twoWords) stopAtSecond).output.memory 7)
        words = some file ∧
      reportFile .little false (fun _ => true) twoLines file = some (c, calls) ∧
      Reporter.run Reporter.compiledSetup calls = some s ∧
      (s.getLineExecutionCount Reporter.compiledSetup (ascii "main.c") 3).hits = 0 ∧
      (s.getLineExecutionCount Reporter.compiledSetup (ascii "main.c") 4).hits = 1 := by
  have hline : ∀ f n a, Reporter.Event.line f n a ∈ twoLines → f = ascii "main.c" ∧ n.toNat ≤ 4 := by
    intro f n a hmem
    simp only [twoLines, List.mem_cons, Reporter.Event.line.injEq, List.not_mem_nil, or_false] at hmem
    rcases hmem with ⟨rfl, rfl, -⟩ | ⟨rfl, rfl, -⟩ <;> exact ⟨rfl, by decide⟩
  have hadmits : ∀ ev ∈ twoLines, Reporter.Admits Reporter.compiledSetup ev := by
    intro ev hev
    cases ev with
    | line f n a =>
      have hn := (hline f n a hev).2
      exact fun _ => ⟨show n.toNat + 1 < 2 ^ 32 by omega, show 0 + 1 < 2 ^ 32 by decide⟩
    | _ => trivial
  have hregistered : registered Reporter.compiledSetup.runFilters twoLines = [0x1000, 0x2000] := rfl
  have hrecordable : Recordable (ascii "/a") (ascii " ")
      (registered Reporter.compiledSetup.runFilters twoLines) :=
    ⟨by decide, by decide, by decide, by decide, by decide, by decide⟩
  obtain ⟨processed, hwrite⟩ : ∃ processed, handleWriter .little 7 (ascii "/a") (ascii " ") [1]
      (registered Reporter.compiledSetup.runFilters twoLines) = some processed :=
    Option.isSome_iff_exists.mp (by decide)
  obtain ⟨f, hparse, hfilename, hoptions, hentries⟩ :=
    @fromProcessedFile_handleWriter _ _ _ _ _ _ _ hrecordable 0 rfl hwrite
  rw [hregistered] at hentries
  have hcreates : Creates (fun _ => f) fun _ => twoWords := by
    intro id
    rw [hfilename, hoptions, hentries]
    rfl
  have hall := @hits_eq_stopped .little (fun _ => 0) Reporter.compiledSetup (by decide) false twoLines
    (by decide) (fun f n g m a hf hg _ => (hline f n a hf).1.trans (hline g m a hg).1.symm) hadmits
    _ _ _ processed 7 hrecordable hwrite 0 rfl id rfl (fun _ => f) (fun _ => ⟨0, processed, hparse⟩)
    hparse _ hcreates stopAtSecond
  simp only [hentries] at hall
  obtain ⟨words, hwords⟩ : ∃ words, (Machine.run (fun _ => [0x1000, 0x2000]) (fun _ => twoWords)
      stopAtSecond).output.files 7 = some words :=
    Option.isSome_iff_exists.mp (by decide)
  obtain ⟨file, -, c, calls, s, hfile, -, -, -, hreport, -, hrun, hhits⟩ :=
    (hall (by decide) settled_stopAtSecond).2 words hwords
  exact ⟨words, file, c, calls, s, hwords, hfile, hreport, hrun,
    (hhits ⟨ascii "main.c", 3⟩).trans (by decide),
    (hhits ⟨ascii "main.c", 4⟩).trans (by decide)⟩

end Ends

end Kcov.SystemMode
