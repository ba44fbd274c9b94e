import FastWasm.FreeMatch
import FastWasm.Ledger

/-!
# Files (`core/fw_file.c`) and what `fw_module_load` holds

`fw_module_load` opens a file, takes a block for its bytes and a handle, and then the blocks of the
module. Every allocation of `fw_file_read` and of `_fw_module_load` may find no room, `fread` may
come short, and the bytes may be anything: whatever happens, nothing is used that is not held, the
file is closed, and when the result is `NULL` everything is given back, but for the bytes of a file
that was read short (`load_holds`).

What is held is a set of things that were taken (`Held`), and the functions are run for their log of
takings, uses and givings back, which a ledger accepts or not. Which allocations find room is a
parameter, so a theorem is about each pattern of failures at once. The functions are written again
here, because their earlier form has no allocation that fails; that the two return the same where
there is always room is part of the result.

The handlers of the sections are taken for what they allocate when the parse returns `FW_OK`. A
parse that fails half way leaves a module with some arrays in it, and what of it is given back
depends on the handler; this is left out.
-/

namespace FastWasm

open Logged (Fallible emit)
open Logged.Fallible
open Ownership

/-! ## The functions

As the source has them, with every allocation asking whether there is room. The label `err` of a
function is a definition of its own, since several paths lead to it. -/

/-- What is taken and given back while a file is loaded. The three are different calls in C, and
what is said of them is the same: taken once, given back once, not used behind that. -/
inductive Held where
  /-- the `FILE` -/
  | stream
  /-- the `fw_file_t` -/
  | handle
  /-- a block of the module -/
  | block (a : FwAddr)
  deriving DecidableEq, Repr

/-- A program, for what it holds: its state is in its log alone. The log is a list of postings,
which a ledger goes through with the set of what is held. -/
abbrev Holding (α : Type) : Type := Logged (Posting Held) Halt PUnit α

/-- A file that can be opened: where its bytes are, how many there are, and how many `fread` gets.
-/
structure OpenFile where
  /-- where the block for its bytes starts -/
  start : ℕ
  /-- `byteslen` -/
  byteslen : ℕ
  /-- the number of bytes that `fread` gets -/
  nread : ℕ

/-- The bytes, as a cursor at their beginning. The end is where `ftell` says, whatever `fread` gets.
-/
def OpenFile.data (file : OpenFile) : FwStr := ⟨file.start, file.start + file.byteslen⟩

/-- `fw_file_t`, the handle: a block of its own that points to the bytes until they are handed over.
-/
structure FwFile where
  /-- `file` -/
  file : Option FwStr
  deriving DecidableEq, Repr

/-- `fw_free` and `fclose`, for what was taken. The ledger refuses it for what is not held. -/
def giveBack (a : Held) : Holding PUnit := emit (.use (.free a))

section Programs

variable (mem : Mem) (room : Held → Bool)

/-- `fw_malloc` and `fw_calloc`: whether there was room. Which allocations find room is a parameter,
so what is proved holds for every pattern of failures. -/
def fwMalloc (a : Held) : Holding Bool :=
  if room a then do
    emit (.take a)
    pure true
  else pure false

/-- The label `err` of `fw_file_read`. It does not free `filedata`, which is lost when the file was
read short. -/
def fwFileReadErr (ret : Bool) : Holding (Option FwFile) := do
  if ret then giveBack .handle else pure ⟨⟩
  giveBack .stream
  pure none

/-- `fw_file_read`: the file is opened, a handle and a block are allocated, and the bytes are read
into the block. A file that cannot be opened is `none`. The three ways to the label `err` differ in
what has been taken before. -/
def fwFileRead : Option OpenFile → Holding (Option FwFile)
  | none => pure none
  | some file => do
    emit (.take .stream)
    let ret ← fwMalloc room .handle
    if ret then do
      let filedata ← fwMalloc room (.block .filedata)
      if filedata then
        if file.nread = file.byteslen then do
          giveBack .stream
          pure (some ⟨some file.data⟩)
        else fwFileReadErr true
      else fwFileReadErr true
    else fwFileReadErr false

/-- `fw_file_close`, which frees the bytes unless they were handed over. Then the module has them,
and only the handle goes. -/
def fwFileClose (file : FwFile) : Holding PUnit := do
  if file.file.isSome then giveBack (.block .filedata) else pure ⟨⟩
  giveBack .handle

/-- `fw_file_detach_data`, which hands the bytes over: the handle has none any more. -/
def fwFileDetachData (file : FwFile) : Option FwStr × FwFile := (file.file, ⟨none⟩)

/-- The variables of `_fw_module_load`, with the list of sections behind `ret`. -/
structure Loading where
  /-- `data` -/
  data : FwStr
  /-- `ret`, as the sections behind it -/
  ret : Option (List FwModuleSection)
  /-- `ret->code_ref` -/
  codeRef : Option FwStr

/-- A part of `_fw_module_load`, which may give up at every allocation and at every byte of the
file. -/
abbrev Building (α : Type) : Type := Fallible (Posting Held) Halt Loading α

/-- A reader of `data`, with its halts and without its events. The names that it copies are of no
interest here. -/
def Building.onData {α : Type} (m : Parse α) : Building α := fun s =>
  match (m s.data).res with
  | .error h => ⟨[], .error h⟩
  | .ok (r, data) => ⟨[], .ok (r, { s with data := data })⟩

/-- `ret = fw_calloc(..)`, from where on the label `err` has something to give back. -/
def newModule : Building PUnit := fun s =>
  if room (.block .module) then ⟨[.take (.block .module)], .ok (some ⟨⟩, { s with ret := some [] })⟩
  else ⟨[], .ok (none, s)⟩

/-- `nsection = fw_malloc(..)`, filled in and appended. When there is no room the list stays as it
is, and the label `err` gives it back. -/
def newSection (sec : FwModuleSection) : Building PUnit := fun s =>
  match s.ret with
  | none => ⟨[], .error (.fault .badPtr)⟩
  | some sections =>
    let node := Held.block (.node sections.length)
    if room node then
      ⟨[.take node], .ok (some ⟨⟩, { s with ret := some (sections ++ [sec]) })⟩
    else ⟨[], .ok (none, s)⟩

/-- The loop of `_fw_module_load`, over the list behind `ret`. It is the loop of `fwLoadSections`
with an allocation in every round, which may fail. -/
def buildSections : ℕ → Building PUnit
  | 0 => halt .fuel
  | n + 1 => do
    let s ← get
    if s.data.pos < s.data.last then do
      let type ← Building.onData (Parse.get8 mem)
      check (¬ type ≥ fwSectionTypeMax)
      let size ← Building.onData (fwStrLebGetu32 mem)
      let s ← get
      let payload : FwStr := ⟨s.data.pos, s.data.pos + size.toNat⟩
      newSection room ⟨type, payload, false⟩
      modify fun s =>
        { s with codeRef := if type = fwSectionTypeCode then some payload else s.codeRef }
      Building.onData (Parse.seek payload.last)
      buildSections n
    else pure ⟨⟩

/-- `_fw_module_load` behind its loop, up to its label `err`: there must be a code section, and the
cursor must be at the end. -/
def finishModule : Building LoadedModule := do
  let s ← get
  match s.codeRef with
  | none => fail
  | some codeRef => do
    Building.onData Parse.consumed
    let s ← get
    pure (.new (s.ret.getD []) codeRef)

/-- `_fw_module_load`, up to its label `err`. It fails where the source jumps there. -/
def buildModule : Building LoadedModule := do
  let magic ← Building.onData (fwStrGet32 mem)
  check (magic = fwMagicNumber)
  let version ← Building.onData (fwStrGet32 mem)
  check (version = fwVersion)
  newModule room
  let s ← get
  buildSections mem room (s.data.last - s.data.pos + 1)
  finishModule

/-- `fw_module_free`, for what it gives back. Its uses of blocks become postings of the ledger, each
under the name of the block. -/
def freeModule (module : LoadedModule) (heap : FwHeap) : Holding PUnit := fun s =>
  let o := fwModuleFree module heap
  ⟨o.log.map fun u => .use (u.map .block), o.res.map fun _ => (⟨⟩, s)⟩

/-- The heap of a module with these sections, of which nothing else is there. -/
def FwHeap.halfLoaded (n : ℕ) : FwHeap where
  array _ := none
  filedata := .null
  allocs := .module :: (List.range n).map .node

/-- The label `err` of `_fw_module_load`. `fw_module_free` does not read `code_ref`. -/
def fwModuleLoadErr (s : Loading) : Holding PUnit :=
  match s.ret with
  | none => pure ⟨⟩
  | some sections =>
    freeModule (.new sections (s.codeRef.getD s.data)) (.halfLoaded sections.length)

/-- `_fw_module_load`, for what it holds: the module is built, or what was built is given back. -/
def _fwModuleLoadHeld (data : FwStr) : Holding (Option LoadedModule) :=
  recover (buildModule mem room) ⟨data, none, none⟩ fwModuleLoadErr

/-- What the handlers allocate, for a module whose parse returns `FW_OK`. What they have allocated
when one of them fails is left out. -/
def fwParseTakes (loaded : LoadedModule) : Status → List FwAddr
  | .ok => (fwModuleHeap mem loaded).allocs.drop (loaded.sections.length + 2)
  | .err => []

/-- The rest of `fw_module_load`, with a module. The status of the parse is dropped. -/
def fwLoadParsed (file : FwFile) (loaded : LoadedModule) : Holding (Option LoadedModule) :=
  match fwModuleParse mem loaded with
  | .error h => Logged.halt h
  | .ok (status, module) => do
    takeAll ((fwParseTakes mem loaded status).map .block)
    -- `module->filedata`
    let (_, file) := fwFileDetachData file
    fwFileClose file
    pure (some module)

/-- `fw_module_load`, for what it holds: a file, its bytes, a module that is built from them, and
the parse. The handle is closed on each of the ways out that has one. -/
def fwModuleLoadHeld (file : Option OpenFile) : Holding (Option LoadedModule) := do
  let file ← fwFileRead room file
  match file with
  | none => pure none
  | some file =>
    match file.file with
    | none => Logged.halt (.fault .badPtr)
    | some data => do
      let module ← _fwModuleLoadHeld mem room data
      match module with
      | none => do
        fwFileClose file
        pure none
      | some loaded => fwLoadParsed mem file loaded

end Programs

/-! ## `_fw_module_load` over the list behind `ret`

The earlier form returns the sections in the end; here they are appended as they are found, because
an allocation that fails leaves the list as it is. With room for everything the two do the same. -/

section Build

variable {mem : Mem} {room : Held → Bool} {s s' : Loading} {e : Halt}

section Primitives

variable {α : Type} {m : Parse α} {a : α} {u : PUnit}

@[simp] theorem runs_buildData :
    Runs (Building.onData m) s a s' ↔ ∃ d, Runs m s.data a d ∧ s' = { s with data := d } := by
  simp only [Runs, Building.onData]
  rcases (m s.data).res with h | ⟨_ | b, d⟩
  · simp
  · simp
  · simp [and_assoc, eq_comm]

@[simp] theorem halts_buildData : Halts (Building.onData m) s e ↔ Halts m s.data e := by
  simp only [Halts, Building.onData]
  rcases (m s.data).res with h | ⟨_ | b, d⟩
  · simp
  · simp
  · simp

@[simp] theorem runs_newModule : Runs (newModule room) s u s' ↔
    room (.block .module) = true ∧ s' = { s with ret := some [] } := by
  simp only [Runs, newModule]
  by_cases h : room (.block .module) = true
  · simp [h, eq_comm]
  · simp [h]

@[simp] theorem halts_newModule : Halts (newModule room) s e ↔ False := by
  simp only [Halts, newModule]
  by_cases h : room (.block .module) = true
  · simp [h]
  · simp [h]

@[simp] theorem runs_newSection {sec : FwModuleSection} {data : FwStr}
    {sections : List FwModuleSection} {codeRef : Option FwStr} :
    Runs (newSection room sec) ⟨data, some sections, codeRef⟩ u s' ↔
      room (.block (.node sections.length)) = true ∧
        s' = ⟨data, some (sections ++ [sec]), codeRef⟩ := by
  simp only [Runs, newSection]
  by_cases h : room (.block (.node sections.length)) = true
  · simp [h, eq_comm]
  · simp [h]

@[simp] theorem halts_newSection {sec : FwModuleSection} {data : FwStr}
    {sections : List FwModuleSection} {codeRef : Option FwStr} :
    Halts (newSection room sec) ⟨data, some sections, codeRef⟩ e ↔ False := by
  simp only [Halts, newSection]
  by_cases h : room (.block (.node sections.length)) = true
  · simp [h]
  · simp [h]

end Primitives

section Loop

variable {n : ℕ} {data : FwStr} {sections : List FwModuleSection} {codeRef : Option FwStr}
  {u : PUnit}

/-- One round of the loop that finds a section: there is room for it, and it is appended. -/
theorem runs_buildSections_succ (hlt : data.pos < data.last) :
    Runs (buildSections mem room (n + 1)) ⟨data, some sections, codeRef⟩ u s' ↔
      mem data.pos < fwSectionTypeMax ∧ ∃ size d,
        Runs (fwStrLebGetu32 mem) ⟨data.pos + 1, data.last⟩ size d ∧
        room (.block (.node sections.length)) = true ∧
        Runs (buildSections mem room n) ⟨⟨d.pos + size.toNat, d.last⟩,
          some (sections ++ [⟨mem data.pos, ⟨d.pos, d.pos + size.toNat⟩, false⟩]),
          if mem data.pos = fwSectionTypeCode then some ⟨d.pos, d.pos + size.toNat⟩
            else codeRef⟩ u s' := by
  rw [buildSections]
  simp only [runs_bind, runs_get, runs_ite, hlt, runs_buildData, runs_get8, runs_check, runs_modify,
    runs_seek, runs_pure, and_assoc, exists_and_left, exists_eq_left, exists_const, true_and,
    not_true, false_and, or_false, UInt8.not_le, ge_iff_le]
  refine and_congr_right fun _ => ⟨?_, ?_⟩
  · rintro ⟨size, _, ⟨d, hsize, rfl⟩, _, _, hnew, hrest⟩
    obtain ⟨hroom, rfl⟩ := runs_newSection.mp hnew
    exact ⟨size, d, hsize, hroom, hrest⟩
  · rintro ⟨size, d, hsize, hroom, hrest⟩
    exact ⟨size, _, ⟨d, hsize, rfl⟩, ⟨⟩, _, runs_newSection.mpr ⟨hroom, rfl⟩, hrest⟩

/-- The last round, at the end of the bytes. -/
theorem runs_buildSections_of_le (hle : data.last ≤ data.pos) :
    Runs (buildSections mem room (n + 1)) ⟨data, some sections, codeRef⟩ u s' ↔
      s' = ⟨data, some sections, codeRef⟩ := by
  rw [buildSections]
  simp only [runs_bind, runs_get, runs_ite, runs_pure, and_assoc, exists_and_left, exists_eq_left,
    Nat.not_lt.mpr hle, false_and, false_or, not_false_eq_true, true_and]

/-- The loop over the list finds the sections that `_fwModuleLoad` finds, where there is room for
them. -/
theorem runs_buildSections :
    Runs (buildSections mem room n) ⟨data, some sections, codeRef⟩ u s' ↔ ∃ more codeRef' d,
      Runs (fwLoadSections mem n codeRef) data (more, codeRef') d ∧
        (∀ i < more.length, room (.block (.node (sections.length + i))) = true) ∧
        s' = ⟨d, some (sections ++ more), codeRef'⟩ := by
  induction n generalizing data sections codeRef with
  | zero => simp [buildSections, fwLoadSections]
  | succ n ih =>
    rcases Nat.lt_or_ge data.pos data.last with hlt | hge
    · rw [runs_buildSections_succ hlt]
      simp only [runs_loadSections_succ hlt, ih]
      refine ⟨?_, ?_⟩
      · rintro ⟨htype, size, d, hsize, hroom, more, codeRef', d', hmore, hrooms, rfl⟩
        refine ⟨_, _, _, ⟨htype, size, d, hsize, more, hmore, rfl⟩, fun i hi => ?_, ?_⟩
        · cases i with
          | zero => exact hroom
          | succ i =>
            have h := hrooms i (Nat.lt_of_succ_lt_succ hi)
            rwa [List.length_append, List.length_singleton, Nat.add_right_comm] at h
        · rw [List.append_assoc]
          rfl
      · rintro ⟨_, codeRef', d', ⟨htype, size, d, hsize, more, hmore, rfl⟩, hrooms, rfl⟩
        refine ⟨htype, size, d, hsize, hrooms 0 (Nat.succ_pos _), more, codeRef', d', hmore,
          fun i hi => ?_, ?_⟩
        · rw [List.length_append, List.length_singleton, Nat.add_right_comm]
          exact hrooms (i + 1) (Nat.succ_lt_succ hi)
        · rw [List.append_assoc]
          rfl
    · rw [runs_buildSections_of_le hge]
      simp only [runs_loadSections_of_le hge]
      refine ⟨?_, ?_⟩
      · rintro rfl
        refine ⟨[], codeRef, data, ⟨rfl, rfl, rfl⟩, fun _ hi => absurd hi (Nat.not_lt_zero _), ?_⟩
        rw [List.append_nil]
      · rintro ⟨_, _, _, ⟨rfl, rfl, rfl⟩, -, rfl⟩
        rw [List.append_nil]

/-- It halts where that does, when there is always room. -/
theorem halts_buildSections (hroom : ∀ a, room a = true) :
    Halts (buildSections mem room n) ⟨data, some sections, codeRef⟩ e ↔
      Halts (fwLoadSections mem n codeRef) data e := by
  induction n generalizing data sections codeRef with
  | zero => simp [buildSections, fwLoadSections, Halts, Logged.Fallible.halt]
  | succ n ih =>
    rw [buildSections, fwLoadSections]
    simp only [halts_bind, halts_get, halts_ite, halts_check, halts_buildData, halts_get8,
      halts_pure, Parse.seek, halts_modify, runs_get, runs_buildData, runs_get8, runs_check,
      runs_modify, and_assoc, exists_and_left, exists_eq_left, exists_const, false_or, and_false,
      exists_false, or_false]
    refine and_congr_right fun _ => and_congr_right fun _ => and_congr_right fun _ =>
      or_congr_right ⟨?_, ?_⟩
    · rintro ⟨size, _, ⟨d, hsize, rfl⟩, h | ⟨_, _, hnew, h⟩⟩
      · exact (halts_newSection.mp h).elim
      · obtain ⟨-, rfl⟩ := runs_newSection.mp hnew
        exact ⟨size, d, hsize, ih.mp h⟩
    · rintro ⟨size, d, hsize, h⟩
      exact ⟨size, _, ⟨d, hsize, rfl⟩, .inr ⟨⟨⟩, _, runs_newSection.mpr ⟨hroom _, rfl⟩, ih.mpr h⟩⟩

end Loop

section Module

variable {data : FwStr} {loaded : LoadedModule}

/-- Behind the loop a code section is asked for, and the module is returned. -/
theorem runs_finishModule {sections : List FwModuleSection} {codeRef : Option FwStr} :
    Runs finishModule ⟨data, some sections, codeRef⟩ loaded s' ↔ ∃ ref, codeRef = some ref ∧
      data.pos = data.last ∧ loaded = .new sections ref ∧ s' = ⟨data, some sections, codeRef⟩ := by
  rw [finishModule]
  cases codeRef with
  | none => simp
  | some ref =>
    simp only [runs_bind, runs_get, runs_buildData, runs_consumed, runs_pure, and_assoc,
      exists_and_left, exists_eq_left, exists_const, Option.some.injEq, Option.getD_some,
      exists_eq_left']

/-- A module that is built is the one that `_fwModuleLoad` returns, and there was room for it. The
rounds that allocate are those of `Loader` with a check in front: of the module, and of the node of
every section. -/
theorem runs_buildModule :
    Runs (buildModule mem room) ⟨data, none, none⟩ loaded s' ↔
      room (.block .module) = true ∧
        (∀ i < loaded.sections.length, room (.block (.node i)) = true) ∧
        ∃ d, Runs (_fwModuleLoad mem) data loaded d ∧
          s' = ⟨d, some loaded.sections, some loaded.codeRef⟩ := by
  rw [buildModule]
  simp only [runs_bind, runs_get, runs_buildData, runs_get32, runs_check, runs_newModule,
    runs_buildSections, runs_load, and_assoc, exists_and_left, exists_eq_left, exists_const]
  refine ⟨?_, ?_⟩
  · rintro ⟨-, hmagic, hle, hversion, hroom, _, ⟨more, codeRef, d, hmore, hrooms, rfl⟩, hfinish⟩
    obtain ⟨ref, rfl, hend, rfl, rfl⟩ := runs_finishModule.mp hfinish
    refine ⟨hroom, fun i hi => ?_, hle, hmagic, hversion, d, ⟨more, ref, hmore, hend, rfl⟩, rfl⟩
    have h := hrooms i hi
    rwa [List.length_nil, Nat.zero_add] at h
  · rintro ⟨hroom, hrooms, hle, hmagic, hversion, d, ⟨secs, ref, hsecs, hend, rfl⟩, rfl⟩
    have hrooms (i : ℕ) (hi : i < secs.length) :
        room (.block (.node (([] : List FwModuleSection).length + i))) = true := by
      rw [List.length_nil, Nat.zero_add]
      exact hrooms i hi
    exact ⟨Nat.le_trans (Nat.add_le_add_left (by decide) _) hle, hmagic, hle, hversion, hroom, _,
      ⟨secs, some ref, d, hsecs, hrooms, rfl⟩, runs_finishModule.mpr ⟨ref, rfl, hend, rfl, rfl⟩⟩

theorem halts_finishModule : Halts finishModule s e ↔ False := by
  rw [finishModule]
  rcases hs : s.codeRef with _ | ref
  · simp [hs]
  · simp [hs, Parse.consumed]

/-- It halts where that does, when there is always room. -/
theorem halts_buildModule (hroom : ∀ a, room a = true) :
    Halts (buildModule mem room) ⟨data, none, none⟩ e ↔ Halts (_fwModuleLoad mem) data e := by
  rw [buildModule, _fwModuleLoad]
  simp only [halts_bind, halts_get, halts_buildData, halts_check, runs_get, runs_buildData,
    runs_get32, runs_check, runs_newModule, halts_newModule, halts_buildSections hroom,
    halts_finishModule, and_assoc, exists_and_left, exists_eq_left, exists_const, false_or, hroom,
    true_and, and_false]
  refine or_congr_right (and_congr_right fun _ => and_congr_right fun _ => or_congr_right
    (and_congr_right fun _ => and_congr_right fun _ => or_congr_right ⟨?_, ?_⟩))
  · rintro ⟨_, h⟩
    exact h.elim
  · rintro ⟨⟨secs, _ | ref⟩, d, -, h⟩
    · exact (halts_fail.mp h).elim
    · simp [Parse.consumed] at h

end Module

end Build

/-! ## What is held in `_fw_module_load`

An invariant over the loop: the handle, the bytes and the blocks that the list has. -/

/-- Blocks of a module, as things that are held. The ledger has one set for these, the `FILE` and
the handle. -/
def heldBlocks (as : List FwAddr) : Finset Held := (as.map .block).toFinset

theorem heldBlocks_append (as bs : List FwAddr) :
    heldBlocks (as ++ bs) = heldBlocks as ∪ heldBlocks bs := by
  simp [heldBlocks]

@[simp] theorem mem_heldBlocks {as : List FwAddr} {a : FwAddr} :
    .block a ∈ heldBlocks as ↔ a ∈ as := by
  simp [heldBlocks]

@[simp] theorem handle_notMem (as : List FwAddr) : .handle ∉ heldBlocks as := by
  simp [heldBlocks]

/-- One more block is one more thing that is held. -/
theorem insert_heldBlocks (held : Finset Held) (as : List FwAddr) (a : FwAddr) :
    insert (.block a) (held ∪ heldBlocks as) = held ∪ heldBlocks (as ++ [a]) := by
  have hone : heldBlocks [a] = {.block a} := rfl
  rw [heldBlocks_append, hone, ← Finset.union_assoc, Finset.union_comm _ {_}, Finset.insert_eq]

theorem halfLoaded_allocs_succ (n : ℕ) :
    (FwHeap.halfLoaded (n + 1)).allocs = (FwHeap.halfLoaded n).allocs ++ [.node n] := by
  simp [FwHeap.halfLoaded, List.range_succ]

/-- The blocks behind `ret`, which are what the label `err` has to give back. -/
def Loading.blocks (s : Loading) : Finset Held :=
  match s.ret with
  | none => ∅
  | some sections => heldBlocks (FwHeap.halfLoaded sections.length).allocs

/-- The handle, the bytes and the blocks behind `ret` are held, and no destructor is set. -/
structure Loading.Holds (held : Finset Held) (s : Loading) : Prop where
  /-- what is held -/
  held : held = {.handle, .block .filedata} ∪ s.blocks
  /-- the sections -/
  free : ∀ sections, s.ret = some sections → ∀ sec ∈ sections, sec.free = false

section Building

variable {mem : Mem} {room : Held → Bool} {s : Loading} {held : Finset Held}

/-- Before the module is allocated, when there is no list. -/
def Loading.Before (held : Finset Held) (s : Loading) : Prop := s.ret = none ∧ s.Holds held

/-- Once it is, when what is held is what the list has. -/
def Loading.Behind (held : Finset Held) (s : Loading) : Prop := s.ret ≠ none ∧ s.Holds held

theorem tries_onData {α : Type} (m : Parse α) {P : Finset Held → Loading → Prop}
    (hP : ∀ held s data, P held s → P held { s with data := data })
    (hE : ∀ held s, P held s → s.Holds held) :
    Tries P (Building.onData m) P fun held s => s.Holds held := by
  refine .of_log (fun s => ?_) (fun held s b s' hs hr => ?_) fun held s s' hs hr => ?_
  · rw [Building.onData]
    rcases (m s.data).res with _ | ⟨_, _⟩ <;> rfl
  · obtain ⟨d, -, rfl⟩ := runs_buildData.mp hr
    exact hP _ _ _ hs
  · rw [Building.onData] at hr
    rcases hm : (m s.data).res with _ | ⟨_, d⟩ <;> rw [hm] at hr <;> cases hr
    exact hE _ _ (hP _ _ _ hs)

theorem Loading.Behind.holds (h : s.Behind held) : s.Holds held := h.2

theorem tries_newModule :
    Tries Loading.Before (newModule room) Loading.Behind Loading.Holds := by
  rintro held ⟨data, ret, codeRef⟩ ⟨rfl, hheld, -⟩
  have hheld : held = {.handle, .block .filedata} ∪ heldBlocks [] := hheld
  rw [newModule]
  by_cases hroom : room (.block .module) = true
  · rw [if_pos hroom]
    refine ⟨⟨?_, trivial⟩, nofun, ?_, fun sections h => ?_⟩
    · simp [hheld, ledger, heldBlocks]
    · rw [hheld]
      exact insert_heldBlocks _ [] .module
    · obtain rfl := Option.some.inj h
      exact List.forall_mem_nil _
  · rw [if_neg hroom]
    exact ⟨trivial, hheld, nofun⟩

theorem tries_newSection {sec : FwModuleSection} (hsec : sec.free = false) :
    Tries Loading.Behind (newSection room sec) Loading.Behind Loading.Holds := by
  rintro held ⟨data, _ | sections, codeRef⟩ ⟨hret, hheld, hfree⟩
  · exact absurd rfl hret
  · have hheld : held = {.handle, .block .filedata} ∪
        heldBlocks (FwHeap.halfLoaded sections.length).allocs := hheld
    rw [newSection]
    by_cases hroom : room (.block (.node sections.length)) = true
    · simp only [if_pos hroom]
      refine ⟨⟨?_, trivial⟩, nofun, ?_, fun sections' h => ?_⟩
      · simp [hheld, ledger, FwHeap.halfLoaded]
      · rw [hheld]
        refine (insert_heldBlocks _ _ (.node sections.length)).trans ?_
        have hlen : (sections ++ [sec]).length = sections.length + 1 := List.length_append
        rw [← halfLoaded_allocs_succ, ← hlen]
        rfl
      · obtain rfl := Option.some.inj h
        exact List.forall_mem_append.mpr ⟨hfree _ rfl, List.forall_mem_singleton.mpr hsec⟩
    · simp only [if_neg hroom]
      exact ⟨trivial, hheld, hfree⟩

theorem tries_buildSections (n : ℕ) :
    Tries Loading.Behind (buildSections mem room n) Loading.Behind Loading.Holds := by
  induction n with
  | zero => exact .halt _
  | succ n ih =>
    have hdata {α : Type} (m : Parse α) :
        Tries Loading.Behind (Building.onData m) Loading.Behind Loading.Holds :=
      tries_onData m (fun _ _ _ h => ⟨h.1, h.2.held, h.2.free⟩) fun _ _ => Loading.Behind.holds
    rw [buildSections]
    refine .get_bind fun s => .ite ?_ (.pure fun _ _ h => h)
    refine (hdata _).bind fun type => (Tries.check fun _ _ => Loading.Behind.holds).bind fun _ =>
      (hdata _).bind fun size => .get_bind fun s => (tries_newSection rfl).bind fun _ =>
      (Tries.modify fun _ _ h => ⟨h.1, h.2.held, h.2.free⟩).bind fun _ => (hdata _).bind fun _ => ih

theorem tries_finishModule :
    Tries Loading.Behind finishModule Loading.Behind Loading.Holds := by
  rw [finishModule]
  refine .get_bind fun s => ?_
  rcases s.codeRef with _ | ref
  · exact .fail fun _ _ => Loading.Behind.holds
  · refine (tries_onData _ (fun _ _ _ h => ⟨h.1, h.2.held, h.2.free⟩)
      fun _ _ => Loading.Behind.holds).bind fun _ => .get_bind fun s => .pure fun _ _ h => h

/-- What is held inside `_fw_module_load`, on every path. -/
theorem tries_buildModule :
    Tries Loading.Before (buildModule mem room) Loading.Behind Loading.Holds := by
  have hdata {α : Type} (m : Parse α) :
      Tries Loading.Before (Building.onData m) Loading.Before Loading.Holds :=
    tries_onData m (fun _ _ _ h => ⟨h.1, h.2.held, h.2.free⟩) fun _ _ h => h.2
  rw [buildModule]
  refine (hdata _).bind fun magic => (Tries.check fun _ _ h => h.2).bind fun _ =>
    (hdata _).bind fun version => (Tries.check fun _ _ h => h.2).bind fun _ =>
    tries_newModule.bind fun _ => .get_bind fun s => (tries_buildSections _).bind fun _ =>
    tries_finishModule

end Building

/-! ## What `fw_module_free` gives back

The destructors were followed with a log of uses before. A log that frees each block once, and uses
nothing else, gives back what it frees. -/

section Free

variable {m : LoadedModule} {heap : FwHeap} {e : Use FwAddr} {held : Finset Held}

/-- What is used is freed in the end, as far as the uses of an array go. -/
theorem addr_mem_freed_uses {o : Option (Block FwAddr)} {n : ℕ} (h : e ∈ uses o n) :
    e.addr ∈ freed (uses o n) := by
  cases o with
  | none => cases h
  | some b =>
    rw [mem_freed]
    rcases List.mem_append.mp h with h' | h'
    · obtain ⟨j, -, h'⟩ := List.mem_flatMap.mp h'
      rcases List.mem_cons.mp h' with rfl | h'
      · exact List.mem_append_right _ (List.mem_singleton_self _)
      · obtain ⟨a, -, rfl⟩ := List.mem_map.mp h'
        exact h
    · obtain rfl := List.mem_singleton.mp h'
      exact h

theorem addr_mem_freed_nodes {nodes : List (FwModuleSection × ℕ)}
    (h : e ∈ nodes.flatMap (heap.nodeUses m)) :
    e.addr ∈ freed (nodes.flatMap (heap.nodeUses m)) := by
  obtain ⟨node, hnode, he⟩ := List.mem_flatMap.mp h
  refine mem_freed.mpr (List.mem_flatMap.mpr ⟨node, hnode, ?_⟩)
  rw [FwHeap.nodeUses] at he ⊢
  rcases List.mem_cons.mp he with rfl | he
  · exact List.mem_cons_of_mem _ (List.mem_append_right _ (List.mem_singleton_self _))
  · refine List.mem_cons_of_mem _ (List.mem_append.mpr ?_)
    rcases List.mem_append.mp he with he | he
    · refine .inl ?_
      by_cases hfree : node.1.free = true
      · rw [if_pos hfree] at he ⊢
        obtain ⟨arr, harr, he⟩ := List.mem_flatMap.mp he
        exact List.mem_flatMap.mpr ⟨arr, harr, mem_freed.mp (addr_mem_freed_uses he)⟩
      · rw [if_neg hfree] at he
        cases he
    · obtain rfl := List.mem_singleton.mp he
      exact .inr (List.mem_singleton_self _)

/-- A tidy `fw_module_free` that uses nothing but what it frees gives that back. -/
theorem balances_free {log : List (Use FwAddr)} (htidy : Tidy log)
    (hused : ∀ e ∈ log, e.addr ∈ freed log) (hheld : heldBlocks (freed log) ⊆ held) :
    Balances held (log.map fun e => .use (e.map .block)) (held \ heldBlocks (freed log)) := by
  have huses : (log.map fun e => Posting.use (e.map Held.block)) =
      (log.map (Use.map Held.block)).map .use := (List.map_map ..).symm
  have hfreed : (freed (log.map (Use.map Held.block))).toFinset = heldBlocks (freed log) := by
    rw [freed_map, heldBlocks]
  rw [huses, ← hfreed]
  refine Balances.uses (htidy.map fun a b h => Held.block.inj h) fun u hu => hheld ?_
  obtain ⟨e, he, rfl⟩ := List.mem_map.mp hu
  rw [Use.addr_map]
  exact mem_heldBlocks.mpr (hused e he)

/-- The sections of a module that is half loaded: no destructor is set. -/
theorem freeTypes_eq_nil (hfree : ∀ sec ∈ m.sections, sec.free = false) :
    freeTypes m.sections.zipIdx = [] := by
  rw [freeTypes, List.map_eq_nil_iff, List.filter_eq_nil_iff]
  intro node hnode
  simp [hfree node.1 (List.fst_mem_of_mem_zipIdx hnode)]

/-- What `fw_module_free` does to a module that is half loaded. No section has a destructor yet and
no array is there, so it goes over the sections and frees the module. -/
def halfLoadedUses (m : LoadedModule) : List (Use FwAddr) :=
  m.sections.zipIdx.flatMap ((FwHeap.halfLoaded m.sections.length).nodeUses m) ++ [.free .module]

theorem freed_halfLoaded (hfree : ∀ sec ∈ m.sections, sec.free = false) :
    (freed (halfLoadedUses m)).Perm (FwHeap.halfLoaded m.sections.length).allocs := by
  have hnodes := @freed_nodes m (.halfLoaded m.sections.length) m.sections.zipIdx
  have hmap : m.sections.zipIdx.map (fun node => FwAddr.node node.2) =
      (List.range m.sections.length).map .node := by
    rw [List.range_eq_range', ← List.zipIdx_map_snd, List.map_map]
    rfl
  rw [freeTypes_eq_nil hfree, hmap, List.flatMap_nil, List.flatMap_nil, List.append_nil] at hnodes
  rw [halfLoadedUses, freed_append]
  exact (hnodes.append_right _).trans List.perm_append_comm

/-- `fw_module_free` of a module that is half loaded returns, and gives back its blocks. No handler
has run yet, so no section has the flag `free` and no array is there: the nodes, the bytes and the
module are all there is. -/
theorem freeModule_halfLoaded (hfree : ∀ sec ∈ m.sections, sec.free = false)
    (hcnt : m.typeCnt.toNat = 0) (s : PUnit)
    (hheld : heldBlocks (FwHeap.halfLoaded m.sections.length).allocs ⊆ held) :
    ∃ log, freeModule m (.halfLoaded m.sections.length) s = ⟨log, .ok (⟨⟩, s)⟩ ∧
      Balances held log (held \ heldBlocks (FwHeap.halfLoaded m.sections.length).allocs) := by
  have hshape : (FwHeap.halfLoaded m.sections.length).Shaped := fun _ _ h => by cases h
  have hnil := freeTypes_eq_nil hfree
  have hleft : NodesLeft m (.halfLoaded m.sections.length) m.sections.zipIdx
      (.halfLoaded m.sections.length) := by
    refine ⟨?_, ?_, ?_, rfl, fun _ _ => rfl⟩ <;> simp [hnil]
  obtain ⟨heap', hrun, hdone⟩ := forEach_run (fun _ _ _ => NodesLeft.round) hleft
  have htype : fwFreeArray .type m.typeCnt.toNat heap' = ⟨[], .ok (⟨⟩, heap')⟩ := by
    have harray : heap'.array .type = none := hdone.array .type nofun
    rw [hcnt]
    refine (fwFreeArray_eq ?_).trans ?_ <;> rw [harray] <;> rfl
  have hrun : fwModuleFree m (.halfLoaded m.sections.length) =
      ⟨halfLoadedUses m, .ok (⟨⟩, heap')⟩ := by
    rw [fwModuleFree, Logged.bind_eq hrun, Logged.bind_eq htype, Logged.get_bind_apply,
      hdone.filedata]
    rfl
  refine ⟨_, by rw [freeModule, hrun]; rfl, ?_⟩
  have hset : heldBlocks (FwHeap.halfLoaded m.sections.length).allocs =
      heldBlocks (freed (halfLoadedUses m)) :=
    List.toFinset_eq_of_perm _ _ ((freed_halfLoaded hfree).map _).symm
  rw [hset] at hheld ⊢
  refine balances_free ?_ ?_ hheld
  · refine tidy_append.mpr ⟨tidy_nodes hshape hleft, List.pairwise_singleton _ _, ?_⟩
    intro a ha e he
    obtain ⟨node, -, hmem⟩ := List.mem_flatMap.mp (mem_freed.mp ha)
    refine nodeUses_ne_tail hshape hmem (List.mem_append_right _ ?_)
    rw [List.mem_singleton.mp he]
    exact List.mem_pair.mpr (.inr rfl)
  · intro e he
    rw [halfLoadedUses, freed_append]
    rcases List.mem_append.mp he with he | he
    · exact List.mem_append_left _ (addr_mem_freed_nodes he)
    · obtain rfl := List.mem_singleton.mp he
      exact List.mem_append_right _ (List.mem_singleton_self _)

/-- `fw_module_free` of a module that was parsed gives back all that was allocated for it, when its
destructors match. -/
theorem freeModule_parsed {mem : Mem} {loaded : LoadedModule} (h : Parsed mem loaded m)
    (hcond : Destructible mem loaded m) (s : PUnit) :
    ∃ log, freeModule m (fwModuleHeap mem loaded) s = ⟨log, .ok (⟨⟩, s)⟩ ∧
      Balances (heldBlocks (fwModuleHeap mem loaded).allocs) log ∅ := by
  have htype : Readable ((fwModuleHeap mem loaded).array .type) (FwArray.type.walked m) :=
    (h.spent hcond fun harr => by cases harr).1
  obtain ⟨heap', hrun⟩ := moduleFree_run (h.nodesLeft hcond) htype h.built.filedata
  refine ⟨_, by rw [freeModule, hrun]; rfl, ?_⟩
  have hset : heldBlocks (fwModuleHeap mem loaded).allocs =
      heldBlocks (freed ((fwModuleHeap mem loaded).moduleUses m)) :=
    List.toFinset_eq_of_perm _ _ ((h.freed_perm hcond).map _).symm
  rw [hset, ← Finset.sdiff_self (heldBlocks (freed ((fwModuleHeap mem loaded).moduleUses m)))]
  refine balances_free (tidy_moduleUses h.built.shape (h.nodesLeft hcond) htype) ?_
    (Finset.Subset.refl _)
  intro e he
  rw [FwHeap.moduleUses, freed_append, freed_append]
  rcases List.mem_append.mp he with he | he
  · exact List.mem_append_left _ (addr_mem_freed_nodes he)
  · refine List.mem_append_right _ (List.mem_append.mpr ?_)
    rcases List.mem_append.mp he with he | he
    · exact .inl (addr_mem_freed_uses he)
    · refine .inr ?_
      rcases List.mem_pair.mp he with rfl | rfl
      · exact List.mem_cons_self
      · exact List.mem_cons_of_mem _ (List.mem_singleton_self _)

end Free

/-! ## What the handlers allocate

Blocks of different sections are different, so a handler never takes a block that is held. -/

section Takes

variable {mem : Mem}

/-- The section for which a block was allocated. -/
def FwAddr.section? : FwAddr → Option ℕ
  | .array _ i => some i
  | .cell _ i _ _ => some i
  | _ => none

theorem section?_of_mem {m : LoadedModule} {i : ℕ} {arr : FwArray} {a : FwAddr}
    (h : a ∈ (fwArrayBlock m i arr).addrs) : a.section? = some i ∧ a.owner = some arr := by
  rcases List.mem_cons.mp h with rfl | h
  · exact ⟨rfl, rfl⟩
  · obtain ⟨cells, hcells, hptr⟩ := mem_targets.mp h
    obtain ⟨j, -, rfl⟩ := List.mem_map.mp hcells
    obtain ⟨c, rfl⟩ := cell_of_ptr_mem hptr
    exact ⟨rfl, rfl⟩

theorem nodup_sectionArrays (s : LoadState) : (fwSectionArrays s).Nodup := by
  have hkinds : ((FwImportKind.all.filter fun kind => s.module.importCnt kind ≠ 0).map
      FwArray.imports).Nodup :=
    (List.Nodup.filter _ (by decide)).map fun _ _ h => FwArray.imports.inj h
  rw [fwSectionArrays]
  split <;> first | exact List.nodup_nil | (split_ifs <;> first | exact hkinds | simp)

/-- Every handler allocates blocks of its own, with the number of its section in them. So the blocks
of one handler are different from those of all the others, by induction on the sections. -/
theorem allocs_parseHeap (secs : List FwModuleSection) (i : ℕ) (module : LoadedModule)
    (heap : FwHeap) : ∃ as, (fwParseHeap mem i secs module heap).allocs = heap.allocs ++ as ∧
      as.Nodup ∧ ∀ a ∈ as, ∃ j ≥ i, a.section? = some j := by
  induction secs generalizing i module heap with
  | nil => exact ⟨[], (List.append_nil _).symm, .nil, List.forall_mem_nil _⟩
  | cons sec secs ih =>
    rw [fwParseHeap]
    rcases hr : (fwSectionHandler mem sec.type ⟨module, sec⟩).res with e | ⟨_ | u, s⟩
    · exact ⟨[], (List.append_nil _).symm, .nil, List.forall_mem_nil _⟩
    · exact ⟨[], (List.append_nil _).symm, .nil, List.forall_mem_nil _⟩
    · obtain ⟨as, has, hnodup, hsec⟩ := ih (i + 1) s.module (fwSectionHeap i s heap)
      refine ⟨_, by rw [has, sectionHeap_allocs, List.append_assoc], ?_, fun a ha => ?_⟩
      · refine List.Nodup.append (List.nodup_flatMap.mpr ⟨fun arr _ => nodup_addrs _ i arr, ?_⟩)
          hnodup fun a ha ha' => ?_
        · refine (nodup_sectionArrays s).imp fun hne a ha ha' => hne ?_
          have hown := (section?_of_mem ha).2
          rw [(section?_of_mem ha').2] at hown
          exact (Option.some.inj hown).symm
        · obtain ⟨arr, -, ha⟩ := List.mem_flatMap.mp ha
          obtain ⟨j, hj, ha'⟩ := hsec a ha'
          rw [(section?_of_mem ha).1] at ha'
          exact absurd (Option.some.inj ha') (Nat.ne_of_lt hj)
      · rcases List.mem_append.mp ha with ha | ha
        · obtain ⟨arr, -, ha⟩ := List.mem_flatMap.mp ha
          exact ⟨i, Nat.le_refl i, (section?_of_mem ha).1⟩
        · obtain ⟨j, hj, ha⟩ := hsec a ha
          exact ⟨j, Nat.le_of_succ_le hj, ha⟩

variable {loaded : LoadedModule}

/-- They are blocks that nothing was allocated for before. -/
theorem parseTakes_fresh (status : Status) : (fwParseTakes mem loaded status).Nodup ∧
    ∀ a ∈ fwParseTakes mem loaded status, a.section? ≠ none := by
  cases status with
  | err => exact ⟨.nil, List.forall_mem_nil _⟩
  | ok =>
    obtain ⟨as, has, hnodup, hsec⟩ := @allocs_parseHeap mem loaded.sections 0 loaded
      (.new loaded.sections.length)
    rw [fwParseTakes, fwModuleHeap, has, List.drop_left' (by simp [FwHeap.new])]
    refine ⟨hnodup, fun a ha => ?_⟩
    obtain ⟨j, -, hj⟩ := hsec a ha
    rw [hj]
    exact Option.some_ne_none j

theorem parseTakes_ok : (FwHeap.new loaded.sections.length).allocs ++ fwParseTakes mem loaded .ok =
    (fwModuleHeap mem loaded).allocs := by
  obtain ⟨as, has, -, -⟩ := @allocs_parseHeap mem loaded.sections 0 loaded
    (.new loaded.sections.length)
  rw [fwParseTakes, fwModuleHeap, has, List.drop_left' (by simp [FwHeap.new])]

end Takes

/-! ## `fw_module_load`

All paths put together, once with every pattern of failures and once with room for everything. -/

section Load

variable {mem : Mem} {room : Held → Bool} {file : Option OpenFile}

/-- What `fw_file_read` returns when there is room: the bytes, if `fread` gets all of them. -/
def OpenFile.read (file : OpenFile) : Option FwStr :=
  if file.nread = file.byteslen then some file.data else none

/-- What is never given back: the block for the bytes of a file that is read short. -/
def leaked (room : Held → Bool) : Option OpenFile → Finset Held
  | none => ∅
  | some file =>
    if room .handle ∧ room (.block .filedata) ∧ file.nread ≠ file.byteslen then {.block .filedata}
    else ∅

/-- `fw_file_read` gives back what it takes but for the bytes, or returns a handle and the bytes. By
cases on what fails: the file that is not there, the handle, the bytes, or a read that is short. In
the last case the bytes are leaked. -/
theorem fileRead_run (s : PUnit) : ∃ log r, fwFileRead room file s = ⟨log, .ok (r, s)⟩ ∧
    (r = none ∧ Balances ∅ log (leaked room file) ∧
        ((∀ a, room a = true) → file.bind OpenFile.read = none) ∨
      ∃ f, file = some f ∧ f.nread = f.byteslen ∧ r = some ⟨some f.data⟩ ∧
        Balances ∅ log {.handle, .block .filedata}) := by
  rcases file with _ | f
  · exact ⟨[], none, rfl, .inl ⟨rfl, .nil ∅, fun _ => rfl⟩⟩
  · by_cases hhandle : room .handle = true
    · by_cases hdata : room (.block .filedata) = true
      · by_cases hread : f.nread = f.byteslen
        · refine ⟨[.take .stream, .take .handle, .take (.block .filedata), .use (.free .stream)], _,
            ?_, .inr ⟨f, rfl, hread, rfl, by simp [ledger], by decide⟩⟩
          simp only [fwFileRead, fwMalloc, hhandle, hdata, hread, if_true]
          rfl
        · refine ⟨[.take .stream, .take .handle, .take (.block .filedata), .use (.free .handle),
            .use (.free .stream)], none, ?_,
            .inl ⟨rfl, ⟨by simp [ledger], ?_⟩, fun _ => if_neg hread⟩⟩
          · simp only [fwFileRead, fwMalloc, hhandle, hdata, hread, if_true, if_false]
            rfl
          · rw [leaked, if_pos ⟨hhandle, hdata, hread⟩]
            decide
      · refine ⟨[.take .stream, .take .handle, .use (.free .handle), .use (.free .stream)], none,
          ?_, .inl ⟨rfl, ⟨by simp [ledger], ?_⟩, fun hroom => absurd (hroom _) hdata⟩⟩
        · simp only [fwFileRead, fwMalloc, hhandle, hdata, if_true]
          rfl
        · rw [leaked, if_neg fun h => hdata h.2.1]
          decide
    · refine ⟨[.take .stream, .use (.free .stream)], none, ?_,
        .inl ⟨rfl, ⟨by simp [ledger], ?_⟩, fun hroom => absurd (hroom _) hhandle⟩⟩
      · simp only [fwFileRead, fwMalloc, hhandle]
        rfl
      · rw [leaked, if_neg fun h => hhandle h.1]
        decide

/-- The label `err` of `_fw_module_load` gives back the blocks behind `ret`. -/
theorem moduleLoadErr_run {held : Finset Held} {l : Loading} (hl : l.Holds held) (s : PUnit) :
    ∃ log, fwModuleLoadErr l s = ⟨log, .ok (⟨⟩, s)⟩ ∧
      Balances held log {.handle, .block .filedata} := by
  obtain ⟨data, _ | sections, codeRef⟩ := l
  · refine ⟨[], rfl, trivial, hl.held.trans ?_⟩
    simp [Loading.blocks]
  · have hheld : held = {.handle, .block .filedata} ∪
        heldBlocks (FwHeap.halfLoaded sections.length).allocs := hl.held
    obtain ⟨log, hrun, hlog⟩ := @freeModule_halfLoaded (.new sections (codeRef.getD data)) held
      (hl.free _ rfl) rfl s (hheld ▸ Finset.subset_union_right)
    have hset : held \ heldBlocks (FwHeap.halfLoaded sections.length).allocs =
        {.handle, .block .filedata} := by
      rw [hheld, Finset.union_sdiff_cancel_right]
      simp [FwHeap.halfLoaded]
    exact ⟨log, hrun, hset ▸ hlog⟩

/-- `_fw_module_load` holds what it held before, or the blocks of a module besides. -/
theorem triple_moduleLoad (data : FwStr) :
    Logged.Triple ledger (fun held _ => held = {.handle, .block .filedata})
      (_fwModuleLoadHeld mem room data)
      (fun r held _ => (r = none ∧ held = {.handle, .block .filedata}) ∨
        ∃ loaded d, r = some loaded ∧ Runs (_fwModuleLoad mem) data loaded d ∧
          held = {.handle} ∪ heldBlocks (FwHeap.new loaded.sections.length).allocs)
      fun _ _ => True := by
  refine tries_buildModule.recover (fun held s h => ⟨rfl, ?_, nofun⟩)
    (fun loaded l held s hr h => ?_) fun l held s hl => ?_
  · simp [h, Loading.blocks]
  · obtain ⟨-, -, d, hload, rfl⟩ := runs_buildModule.mp hr
    refine .inr ⟨loaded, d, rfl, hload, h.2.held.trans ?_⟩
    have hnew : heldBlocks (FwHeap.new loaded.sections.length).allocs = insert (.block .filedata)
        (heldBlocks (FwHeap.halfLoaded loaded.sections.length).allocs) := List.toFinset_cons
    rw [hnew, Finset.union_insert, ← Finset.insert_union, Finset.pair_comm]
    rfl
  · obtain ⟨log, hrun, hacc, hafter⟩ := moduleLoadErr_run hl s
    rw [hrun]
    exact ⟨hacc, .inl ⟨rfl, hafter⟩⟩

/-- The rest of `fw_module_load` takes what the handlers allocate and gives back the handle. The
blocks of the handlers are none of those that are held already, since these belong to no array. -/
theorem triple_loadParsed {data : FwStr} {loaded : LoadedModule} :
    Logged.Triple ledger (fun held _ => held = {.handle} ∪
        heldBlocks (FwHeap.new loaded.sections.length).allocs)
      (fwLoadParsed mem ⟨some data⟩ loaded)
      (fun r held _ => ∃ status m, r = some m ∧ fwModuleParse mem loaded = .ok (status, m) ∧
        held = heldBlocks ((FwHeap.new loaded.sections.length).allocs ++
          fwParseTakes mem loaded status))
      fun _ _ => True := by
  rintro _ s rfl
  rw [fwLoadParsed]
  rcases hparse : fwModuleParse mem loaded with e | ⟨status, m⟩
  · exact ⟨trivial, trivial⟩
  · obtain ⟨hnodup, hfresh⟩ := @parseTakes_fresh mem loaded status
    have hnew : ∀ a ∈ (fwParseTakes mem loaded status).map Held.block,
        a ∉ {Held.handle} ∪ heldBlocks (FwHeap.new loaded.sections.length).allocs := by
      intro a ha
      obtain ⟨b, hb, rfl⟩ := List.mem_map.mp ha
      rw [Finset.mem_union, not_or]
      refine ⟨by simp, fun h => hfresh b hb ?_⟩
      rcases b with _ | _ | _ | ⟨arr, i⟩ | ⟨arr, i, j, c⟩
      · rfl
      · rfl
      · rfl
      · simp [FwHeap.new] at h
      · simp [FwHeap.new] at h
    have hset : ({Held.handle} ∪ heldBlocks (FwHeap.new loaded.sections.length).allocs ∪
        ((fwParseTakes mem loaded status).map Held.block).toFinset).erase .handle =
          heldBlocks ((FwHeap.new loaded.sections.length).allocs ++
            fwParseTakes mem loaded status) := by
      rw [Finset.union_assoc, heldBlocks_append, ← Finset.insert_eq, Finset.erase_insert]
      · rfl
      · rw [Finset.mem_union, not_or]
        exact ⟨handle_notMem _, handle_notMem _⟩
    have hhandle : Held.handle ∈ {Held.handle} ∪
        heldBlocks (FwHeap.new loaded.sections.length).allocs ∪
          ((fwParseTakes mem loaded status).map Held.block).toFinset := by simp
    obtain ⟨hacc, hafter⟩ := (Balances.takes (hnodup.map fun a b h => Held.block.inj h) hnew).append
      (Balances.free hhandle)
    exact ⟨hacc, status, m, rfl, rfl, hafter.trans hset⟩

/-- What is held at the end of `fw_module_load`: nothing but what was lost, or the blocks of a
module. -/
def LoadEnds (mem : Mem) (room : Held → Bool) (file : Option OpenFile) (r : Option LoadedModule)
    (held : Finset Held) : Prop :=
  (r = none ∧ held = leaked room file) ∨
    ∃ f loaded d status m, file = some f ∧ f.nread = f.byteslen ∧ r = some m ∧
      Runs (_fwModuleLoad mem) f.data loaded d ∧ fwModuleParse mem loaded = .ok (status, m) ∧
      held = heldBlocks ((FwHeap.new loaded.sections.length).allocs ++
        fwParseTakes mem loaded status)

/-- What `fw_module_load` holds, on every path: in the beginning nothing, and in the end what is
claimed. -/
theorem triple_load : Logged.Triple ledger (fun held _ => held = ∅)
    (fwModuleLoadHeld mem room file) (fun r held _ => LoadEnds mem room file r held)
    fun _ _ => True := by
  rw [fwModuleLoadHeld]
  refine Logged.Triple.bind (R := fun r held _ => (r = none ∧ held = leaked room file) ∨
    ∃ f, file = some f ∧ f.nread = f.byteslen ∧ r = some ⟨some f.data⟩ ∧
      held = {.handle, .block .filedata}) ?_ fun r => ?_
  · rintro _ s rfl
    obtain ⟨log, r, hrun, ⟨hr, ⟨hacc, hafter⟩, -⟩ | ⟨f, hf, hread, hr, hacc, hafter⟩⟩ :=
      @fileRead_run room file s
    · rw [hrun]
      exact ⟨hacc, .inl ⟨hr, hafter⟩⟩
    · rw [hrun]
      exact ⟨hacc, .inr ⟨f, hf, hread, hr, hafter⟩⟩
  · rintro held s (⟨rfl, hheld⟩ | ⟨f, hf, hread, rfl, hheld⟩)
    · exact ⟨trivial, .inl ⟨rfl, hheld⟩⟩
    · refine Logged.Triple.bind (triple_moduleLoad f.data) (fun module => ?_) held s hheld
      rintro held s (⟨rfl, hheld⟩ | ⟨loaded, d, rfl, hload, hheld⟩)
      · have hleak : leaked room file = ∅ := by
          rw [hf, leaked, if_neg fun h => h.2.2 hread]
        have hlog : ledger.Accepts held [.use (.free (.block .filedata)), .use (.free .handle)] ∧
            ledger.after held [.use (.free (.block .filedata)), .use (.free .handle)] = ∅ := by
          rw [hheld]
          exact ⟨by simp [ledger], by decide⟩
        exact ⟨hlog.1, .inl ⟨rfl, hlog.2.trans hleak.symm⟩⟩
      · refine triple_loadParsed.post ?_ held s hheld
        rintro r held s ⟨status, m, hr, hparse, hheld⟩
        exact .inr ⟨f, loaded, d, status, m, hf, hread, hr, hload, hparse, hheld⟩

/-- Where there is always room, `_fw_module_load` returns what it returns without a ledger. -/
theorem moduleLoad_res (hroom : ∀ a, room a = true) (data : FwStr) (s : PUnit) :
    (_fwModuleLoadHeld mem room data s).res.map Prod.fst =
      (_fwModuleLoad mem data).res.map Prod.fst := by
  have hbuild := @tries_buildModule mem room {.handle, .block .filedata} ⟨data, none, none⟩
    ⟨rfl, by simp [Loading.blocks], nofun⟩
  rw [_fwModuleLoadHeld, recover]
  rcases hr : (buildModule mem room ⟨data, none, none⟩).res with e | ⟨_ | loaded, l⟩
  · have hhalt : (_fwModuleLoad mem data).res = .error e := (halts_buildModule hroom).mp hr
    simp [hhalt, Except.map]
  · rw [hr] at hbuild
    obtain ⟨log, herr, -⟩ := moduleLoadErr_run hbuild.2 s
    have hfails : ∃ d, (_fwModuleLoad mem data).res = .ok (none, d) := by
      rcases hload : (_fwModuleLoad mem data).res with e | ⟨_ | loaded, d⟩
      · cases hr.symm.trans ((halts_buildModule hroom).mpr hload)
      · exact ⟨d, rfl⟩
      · cases hr.symm.trans (runs_buildModule.mpr ⟨hroom _, fun _ _ => hroom _, d, hload, rfl⟩)
    obtain ⟨d, hfails⟩ := hfails
    simp [hfails, herr, Except.map]
  · obtain ⟨-, -, d, hload, -⟩ := runs_buildModule.mp hr
    have hload : (_fwModuleLoad mem data).res = .ok (some loaded, d) := hload
    simp [hload, Except.map]

/-- Where there is always room, so does `fw_module_load`. -/
theorem load_res (hroom : ∀ a, room a = true) (s : PUnit) :
    (fwModuleLoadHeld mem room file s).res.map Prod.fst =
      fwModuleLoad mem (file.bind OpenFile.read) := by
  obtain ⟨log, r, hrun, ⟨rfl, -, hnone⟩ | ⟨f, rfl, hread, rfl, -⟩⟩ := @fileRead_run room file s
  · rw [fwModuleLoadHeld, Logged.bind_eq hrun, hnone hroom]
    rfl
  · have hsome : (some f).bind OpenFile.read = some f.data := if_pos hread
    have hload := @moduleLoad_res mem room hroom f.data s
    rw [fwModuleLoadHeld, Logged.bind_eq hrun, hsome, fwModuleLoad]
    rcases hl : (_fwModuleLoad mem f.data).res with e | ⟨_ | loaded, d⟩ <;>
      rcases hr : (_fwModuleLoadHeld mem room f.data s).res with e' | ⟨module, s'⟩ <;>
      rw [hl, hr] at hload <;> cases hload <;> simp only
    · rw [Logged.bind_of_error hr]
      rfl
    · rw [Logged.bind_of_ok hr]
      rfl
    · rw [Logged.bind_of_ok hr]
      simp only [fwLoadParsed]
      rcases fwModuleParse mem loaded with e | ⟨status, m⟩
      · rfl
      · rfl

end Load

/-- `fw_module_load` of a file, and what it holds. The file may be missing, `room` says which
allocations find room, and `fread` returns any number. -/
structure LoadHolds (mem : Mem) (room : Held → Bool) (file : Option OpenFile) : Prop where
  /-- nothing is used or freed that is not held, and nothing is taken that is -/
  disciplined : ledger.Accepts ∅ (fwModuleLoadHeld mem room file ⟨⟩).log
  /-- where there is always room, it returns what `fwModuleLoad` returns for the bytes -/
  result : (∀ a, room a = true) → (fwModuleLoadHeld mem room file ⟨⟩).res.map Prod.fst =
    fwModuleLoad mem (file.bind OpenFile.read)
  /-- behind `NULL`, nothing is held but the bytes of a file that was read short -/
  failed : ∀ s, (fwModuleLoadHeld mem room file ⟨⟩).res = .ok (none, s) →
    ledger.after ∅ (fwModuleLoadHeld mem room file ⟨⟩).log = leaked room file
  /-- behind a module, its sections are held, and when the parse returned `FW_OK`, what was
  allocated for the module, which `fw_module_free` gives back if the destructors match -/
  loaded : ∀ m s, (fwModuleLoadHeld mem room file ⟨⟩).res = .ok (some m, s) →
    ∃ f loaded d status, file = some f ∧ f.nread = f.byteslen ∧
      Runs (_fwModuleLoad mem) f.data loaded d ∧ fwModuleParse mem loaded = .ok (status, m) ∧
      heldBlocks (FwHeap.new loaded.sections.length).allocs ⊆
        ledger.after ∅ (fwModuleLoadHeld mem room file ⟨⟩).log ∧
      (status = .ok → ledger.after ∅ (fwModuleLoadHeld mem room file ⟨⟩).log =
        heldBlocks (fwModuleHeap mem loaded).allocs ∧
          (Destructible mem loaded m →
            ∃ log, freeModule m (fwModuleHeap mem loaded) ⟨⟩ = ⟨log, .ok (⟨⟩, ⟨⟩)⟩ ∧
              Balances (heldBlocks (fwModuleHeap mem loaded).allocs) log ∅))

/-- **No path of `fw_module_load` loses anything**, but for the bytes of a file that is read
short. -/
theorem load_holds (mem : Mem) (room : Held → Bool) (file : Option OpenFile) :
    LoadHolds mem room file := by
  obtain ⟨hacc, hends⟩ := @triple_load mem room file ∅ ⟨⟩ rfl
  refine ⟨hacc, fun hroom => load_res hroom ⟨⟩, fun s hr => ?_, fun m s hr => ?_⟩
  · rw [hr] at hends
    rcases hends with ⟨-, hheld⟩ | ⟨_, _, _, _, _, -, -, hr', -⟩
    · exact hheld
    · cases hr'
  · rw [hr] at hends
    rcases hends with ⟨hr', -⟩ | ⟨f, loaded, d, status, m', hf, hread, hr', hload, hparse, hheld⟩
    · cases hr'
    · obtain rfl := Option.some.inj hr'
      refine ⟨f, loaded, d, status, hf, hread, hload, hparse, ?_, ?_⟩
      · rw [hheld, heldBlocks_append]
        exact Finset.subset_union_left
      · rintro rfl
        rw [hheld, parseTakes_ok]
        exact ⟨rfl, fun hcond => freeModule_parsed (parsed_of_parse hload hparse) hcond ⟨⟩⟩

/-- A file of three bytes of which two are read. -/
example (mem : Mem) :
    ledger.after ∅ (fwModuleLoadHeld mem (fun _ => true) (some ⟨0, 3, 2⟩) ⟨⟩).log =
      {.block .filedata} := rfl

end FastWasm
