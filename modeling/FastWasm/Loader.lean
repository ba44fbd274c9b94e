import FastWasm.Reader

/-!
# Loading a module (`module/fw_loader.c`)

A section handler is a computation over the module it fills and the section it was called for. It
fails where the source jumps to `err` or `str_err` and returns `FW_ERR`; whatever it wrote before
stays written. Every allocation succeeds.

A counted array is its count and the list of the entries that were decoded: the handlers set the
count first and then decode as many entries as they can. So behind a handler that failed the count
may be greater than the list is long.

The names of the parts are those of the fields, and a handler reads in the order of the source.
Where handlers differ in their values only, there is one definition with the values as parameters
(`fwVecSection`), and each handler is that definition at its own. The functions, the imports and the
types have handlers of another shape, and are written out.
-/

namespace FastWasm

open Logged (Fallible Part)
open Logged.Fallible

/-! ## The data

The structures have the fields of the source that the loader or a later stage reads. A name is the
list of its bytes, which the source copies, and a payload is a slice of the file, which it does not.
-/

/-- `FW_MAGIC_NUMBER` -/
def fwMagicNumber : UInt32 := 0x6d736100

/-- `FW_VERSION` -/
def fwVersion : UInt32 := 1

/-- `FW_SECTION_TYPE_MAX`, one more than the last section id. A section from it on makes the file be
refused. -/
def fwSectionTypeMax : UInt8 := 12

/-- `FW_SECTION_TYPE_CODE` -/
def fwSectionTypeCode : UInt8 := 10

/-- `fw_module_section_t`; `free` says whether the destructor of its type was set. The payload is a
slice of the bytes of the file. -/
structure FwModuleSection where
  /-- the section id -/
  type : UInt8
  /-- the payload -/
  data : FwStr
  /-- `free` is set -/
  free : Bool
  deriving DecidableEq, Repr

/-- `FW_IMPORT_KIND`, by which the module keeps its imports in four arrays. -/
inductive FwImportKind where
  /-- `FW_IMPORT_KIND_FUNC` -/
  | func
  /-- `FW_IMPORT_KIND_TABLE` -/
  | table
  /-- `FW_IMPORT_KIND_MEMORY` -/
  | memory
  /-- `FW_IMPORT_KIND_GLOBAL` -/
  | global
  deriving DecidableEq, Repr

/-- The kind a byte stands for, if it is below `FW_IMPORT_KIND_MAX`. The counting pass passes over
other bytes in silence, and the filling pass takes them for an index into the arrays. -/
def FwImportKind.ofByte : UInt8 → Option FwImportKind
  | 0 => some .func
  | 1 => some .table
  | 2 => some .memory
  | 3 => some .global
  | _ => none

/-- The union `u` of `fw_module_import_t`, with the kind in `type`: there is a constructor for each
kind, with the fields that are read of it. -/
inductive FwImportDesc where
  /-- `u.func` -/
  | func (typeidx : UInt32)
  /-- `u.tb` -/
  | table (type : UInt8) (min max : UInt32)
  /-- `u.mm` -/
  | memory (min max : UInt32)
  /-- `u.gl` -/
  | global (type mutable : UInt8)
  deriving DecidableEq, Repr

/-- The kind of a descriptor, which is what the field `type` of an import says. -/
def FwImportDesc.kind : FwImportDesc → FwImportKind
  | .func _ => .func
  | .table .. => .table
  | .memory .. => .memory
  | .global .. => .global

/-- `fw_module_import_t`: two names, copied out of the section, and a descriptor. -/
structure LoadedImport where
  /-- the module name -/
  mname : List UInt8
  /-- the field name -/
  nsname : List UInt8
  /-- what is imported -/
  desc : FwImportDesc
  deriving DecidableEq, Repr

/-- `fw_module_func_t` as the loader fills it. `functype` is `none` for a type that was read from
behind the end of the array. -/
structure LoadedFunc where
  /-- the types of the locals -/
  localType : List UInt8
  /-- the number of locals -/
  localCnt : UInt32
  /-- the type -/
  functype : Option FwModuleType
  /-- the instructions -/
  body : FwStr
  deriving DecidableEq, Repr

/-- `fw_module_table_t`. The array is from `fw_calloc`, and the element type in it is never written.
-/
structure FwModuleTable where
  /-- the element type -/
  type : UInt8
  /-- the minimum -/
  min : UInt32
  /-- the maximum -/
  max : UInt32
  deriving DecidableEq, Repr

/-- `fw_module_memory_t`, of which the loader never makes one: the handler gives up before. -/
structure FwModuleMemory where
  /-- the minimum -/
  min : UInt32
  /-- the maximum -/
  max : UInt32
  deriving DecidableEq, Repr

/-- `fw_module_global_t`. The two bytes are not checked, and the initial value is not kept. -/
structure FwModuleGlobal where
  /-- the value type -/
  type : UInt8
  /-- whether it is mutable -/
  mutable : UInt8
  deriving DecidableEq, Repr

/-- `fw_module_export_t` before `compile`, which looks the index up and sets `func`. The kind is
stored as it is read. -/
structure LoadedExport where
  /-- the exported name -/
  name : List UInt8
  /-- the kind -/
  kind : UInt8
  /-- the index -/
  idx : UInt32
  deriving DecidableEq, Repr

/-- `fw_module_elem_t`; `funcs` is indeterminate for a segment of no functions, since the array of
the segments is from `fw_malloc`. The destructor looks at the number before it frees. -/
structure FwModuleElem where
  /-- the table -/
  tableIdx : UInt32
  /-- the number of functions -/
  funcCnt : UInt32
  /-- the functions -/
  funcs : Option (List UInt32)
  deriving DecidableEq, Repr

/-- `fw_module_data_t`. The bytes stay in the file, and the segment has the address of the first
one. -/
structure FwModuleData where
  /-- the number of bytes -/
  dataLen : UInt32
  /-- the memory -/
  memIdx : UInt32
  /-- the address of the bytes -/
  data : ℕ
  deriving DecidableEq, Repr

/-- `fw_module_t` as the loader fills it, with a count and a list for each of its arrays. -/
structure LoadedModule where
  /-- the sections, in the order of the file -/
  sections : List FwModuleSection
  /-- the cursor of the section that `code_ref` points to -/
  codeRef : FwStr
  /-- `import_cnt` -/
  importCnt : FwImportKind → UInt32
  /-- the imports of each kind -/
  imports : FwImportKind → List LoadedImport
  /-- `func_cnt` -/
  funcCnt : UInt32
  /-- the defined functions -/
  funcs : List LoadedFunc
  /-- `table_cnt` -/
  tableCnt : UInt32
  /-- the tables -/
  tables : List FwModuleTable
  /-- `memory_cnt` -/
  memoryCnt : UInt32
  /-- the memories -/
  memories : List FwModuleMemory
  /-- `global_cnt` -/
  globalCnt : UInt32
  /-- the globals -/
  globals : List FwModuleGlobal
  /-- `export_cnt` -/
  exportCnt : UInt32
  /-- the exports -/
  exports : List LoadedExport
  /-- `elem_cnt` -/
  elemCnt : UInt32
  /-- the element segments -/
  elems : List FwModuleElem
  /-- `data_cnt` -/
  dataCnt : UInt32
  /-- the data segments -/
  datas : List FwModuleData
  /-- `type_cnt` -/
  typeCnt : UInt32
  /-- the types, `none` for the `NULL` array -/
  type : Option (List FwModuleType)
  /-- `start_func` -/
  startFunc : UInt32

/-- What `fw_calloc` returns for a module, with its sections. -/
def LoadedModule.new (sections : List FwModuleSection) (codeRef : FwStr) : LoadedModule where
  sections := sections
  codeRef := codeRef
  importCnt _ := 0
  imports _ := []
  funcCnt := 0
  funcs := []
  tableCnt := 0
  tables := []
  memoryCnt := 0
  memories := []
  globalCnt := 0
  globals := []
  exportCnt := 0
  exports := []
  elemCnt := 0
  elems := []
  dataCnt := 0
  datas := []
  typeCnt := 0
  type := none
  startFunc := 0

/-! ## Handlers

A handler reads from two cursors, that of its section and that of the code section, and writes into
the module. Each of the three is a component of one state. -/

/-- The arguments of a section handler: the module and the section, each with its cursor. Both are
as the handler leaves them, when it fails too. -/
structure LoadState where
  /-- the module -/
  module : LoadedModule
  /-- the section -/
  sec : FwModuleSection

/-- A section handler, or a part of one, which fails with `FW_ERR` or never ends. -/
abbrev Load (α : Type) : Type := Fallible LoadEvent Halt LoadState α

namespace LoadState

/-- The module, into which the handlers write. -/
def modulePart : Part LoadState LoadedModule where
  get s := s.module
  put m s := { s with module := m }
  get_put _ _ := rfl
  put_put _ _ _ := rfl
  put_get _ := rfl

/-- `section->data` -/
def dataPart : Part LoadState FwStr where
  get s := s.sec.data
  put d s := { s with sec.data := d }
  get_put _ _ := rfl
  put_put _ _ _ := rfl
  put_get _ := rfl

/-- `module->code_ref->data` -/
def codePart : Part LoadState FwStr where
  get s := s.module.codeRef
  put d s := { s with module.codeRef := d }
  get_put _ _ := rfl
  put_put _ _ _ := rfl
  put_get _ := rfl

theorem data_apart_module : Part.Apart dataPart modulePart :=
  ⟨fun _ _ => rfl, fun _ _ => rfl, fun _ _ _ => rfl⟩

end LoadState

open LoadState

/-- Read from `section->data`, whose cursor moves. -/
def Load.onData {α : Type} (m : Parse α) : Load α := zoom dataPart m

/-- Read from `module->code_ref->data`, whose cursor moves and stays where it is for the next
handler. -/
def Load.onCode {α : Type} (m : Parse α) : Load α := zoom codePart m

/-- Write into the module, which stays written when the handler fails later. -/
def Load.update (f : LoadedModule → LoadedModule) : Load PUnit :=
  modify fun s => { s with module := f s.module }

/-- Set `section->free`, to the destructor of the section. A handler does so once its array is
allocated, so a handler that fails later is still cleaned up behind. -/
def Load.setFree : Load PUnit := modify fun s => { s with sec.free := true }

open Load

section Handlers

variable (mem : Mem)

/-- `fw_module_parse_expr`: one constant and an `end`. The constant is passed over and not kept. It
is `i32.const`, `i64.const`, four or eight raw bytes behind `f32.const` or `f64.const`, or
`global.get` with an index that is read as a signed number. -/
def fwModuleParseExpr : Parse PUnit := do
  let literal ← Parse.get8 mem
  if literal = 0x41 then do
    let _ ← fwStrLebGeti32 mem
  else if literal = 0x42 then do
    let _ ← fwStrLebGeti64 mem
  else if literal = 0x43 then
    fwStrPass 4
  else if literal = 0x44 then
    fwStrPass 8
  else if literal = 0x23 then do
    let _ ← fwStrLebGeti32 mem
  else fail
  let iend ← Parse.get8 mem
  check (iend = 0x0b)

/-! ### Sections that are one vector

Five sections are a count and that many entries, and differ in what an entry is and in which count
and array they go to. A parameter for each of these, and the handlers are instances. -/

/-- The shape of the handlers of `data`, `elem`, `export`, `global` and `table`: a count, and for a
count other than 0 the array, which is published with its count before its entries are read. All
bytes must be consumed. -/
def fwVecSection {α : Type} (cnt : Part LoadedModule UInt32) (items : Part LoadedModule (List α))
    (entry : Parse α) : Load PUnit := do
  let n ← onData (fwStrLebGetu32 mem)
  if n ≠ 0 then do
    update fun m => items.put [] (cnt.put n m)
    setFree
    let _ ← collect (onData entry >>= push (modulePart.comp items)) n.toNat
  else pure ⟨⟩
  onData Parse.consumed

/-- `data_cnt`, as a part of the module that can be read and written. -/
def dataCntPart : Part LoadedModule UInt32 :=
  ⟨(·.dataCnt), fun n m => { m with dataCnt := n }, fun _ _ => rfl, fun _ _ _ => rfl, fun _ => rfl⟩

/-- `datas`, as a part of the module too. The two are handed to `fwVecSection`. -/
def datasPart : Part LoadedModule (List FwModuleData) :=
  ⟨(·.datas), fun l m => { m with datas := l }, fun _ _ => rfl, fun _ _ _ => rfl, fun _ => rfl⟩

/-- One data segment: its memory, an offset that is passed over, and its bytes. The length is
compared with the bytes left, as `fw_str_pass` does it. -/
def fwDataEntry : Parse FwModuleData := do
  let memIdx ← fwStrLebGetu32 mem
  fwModuleParseExpr mem
  let dataLen ← fwStrLebGetu32 mem
  let data ← get
  fwStrPass dataLen.toNat
  pure ⟨dataLen, memIdx, data.pos⟩

/-- `fw_module_section_data`: a vector of segments. -/
def fwModuleSectionData : Load PUnit := fwVecSection mem dataCntPart datasPart (fwDataEntry mem)

/-- `elem_cnt` -/
def elemCntPart : Part LoadedModule UInt32 :=
  ⟨(·.elemCnt), fun n m => { m with elemCnt := n }, fun _ _ => rfl, fun _ _ _ => rfl, fun _ => rfl⟩

/-- `elems` -/
def elemsPart : Part LoadedModule (List FwModuleElem) :=
  ⟨(·.elems), fun l m => { m with elems := l }, fun _ _ => rfl, fun _ _ _ => rfl, fun _ => rfl⟩

/-- One element segment: one function index is read, and stored `func_cnt` times. The read is in
front of the loop in which it belongs, so of a segment with more functions the other indices are
left in the section and taken for what follows. -/
def fwElemEntry : Parse FwModuleElem := do
  let tableIdx ← fwStrLebGetu32 mem
  fwModuleParseExpr mem
  let funcCnt ← fwStrLebGetu32 mem
  if funcCnt ≠ 0 then do
    let funcIdx ← fwStrLebGetu32 mem
    pure ⟨tableIdx, funcCnt, some (List.replicate funcCnt.toNat funcIdx)⟩
  else pure ⟨tableIdx, funcCnt, none⟩

/-- `fw_module_section_elem`: a vector of segments. -/
def fwModuleSectionElem : Load PUnit := fwVecSection mem elemCntPart elemsPart (fwElemEntry mem)

/-- `export_cnt` -/
def exportCntPart : Part LoadedModule UInt32 :=
  ⟨(·.exportCnt), fun n m => { m with exportCnt := n }, fun _ _ => rfl, fun _ _ _ => rfl,
    fun _ => rfl⟩

/-- `exports` -/
def exportsPart : Part LoadedModule (List LoadedExport) :=
  ⟨(·.exports), fun l m => { m with exports := l }, fun _ _ => rfl, fun _ _ _ => rfl, fun _ => rfl⟩

/-- One export. The name is copied before its length is compared with the bytes left, so the copy
may read behind the section. -/
def fwExportEntry : Parse LoadedExport := do
  let nameLen ← fwStrLebGetu32 mem
  let name ← fwMakeStr mem nameLen.toNat
  fwStrPass nameLen.toNat
  let kind ← Parse.get8 mem
  let idx ← fwStrLebGetu32 mem
  pure ⟨name, kind, idx⟩

/-- `fw_module_section_export`: a vector of exports. -/
def fwModuleSectionExport : Load PUnit :=
  fwVecSection mem exportCntPart exportsPart (fwExportEntry mem)

/-- `global_cnt` -/
def globalCntPart : Part LoadedModule UInt32 :=
  ⟨(·.globalCnt), fun n m => { m with globalCnt := n }, fun _ _ => rfl, fun _ _ _ => rfl,
    fun _ => rfl⟩

/-- `globals` -/
def globalsPart : Part LoadedModule (List FwModuleGlobal) :=
  ⟨(·.globals), fun l m => { m with globals := l }, fun _ _ => rfl, fun _ _ _ => rfl, fun _ => rfl⟩

/-- One global: its type, whether it may change, and its initial value, which is passed over. -/
def fwGlobalEntry : Parse FwModuleGlobal := do
  let type ← fwStrLebGetu8 mem
  let mutable ← fwStrLebGetu8 mem
  fwModuleParseExpr mem
  pure ⟨type, mutable⟩

/-- `fw_module_section_global`: a vector of globals. -/
def fwModuleSectionGlobal : Load PUnit :=
  fwVecSection mem globalCntPart globalsPart (fwGlobalEntry mem)

/-- `table_cnt` -/
def tableCntPart : Part LoadedModule UInt32 :=
  ⟨(·.tableCnt), fun n m => { m with tableCnt := n }, fun _ _ => rfl, fun _ _ _ => rfl,
    fun _ => rfl⟩

/-- `tables` -/
def tablesPart : Part LoadedModule (List FwModuleTable) :=
  ⟨(·.tables), fun l m => { m with tables := l }, fun _ _ => rfl, fun _ _ _ => rfl, fun _ => rfl⟩

/-- The maximum that follows a minimum when the flag says so. With another flag the default is
taken, which differs between the handlers. -/
def fwLimitsMax (limits dflt : UInt32) : Parse UInt32 :=
  if limits = 0x01 then fwStrLebGetu32 mem else pure dflt

/-- One table. The element type is checked and not stored. The flag is read as a whole number, and
any but 1 counts as none. -/
def fwTableEntry : Parse FwModuleTable := do
  let type ← fwStrLebGetu8 mem
  check (type = 0x70)
  let limits ← fwStrLebGetu32 mem
  let min ← fwStrLebGetu32 mem
  let max ← fwLimitsMax mem limits 0x100
  pure ⟨0, min, max⟩

/-- `fw_module_section_table`: a vector of tables. It sets the count before it allocates, which
makes no difference where there is always room. -/
def fwModuleSectionTable : Load PUnit :=
  fwVecSection mem tableCntPart tablesPart (fwTableEntry mem)

/-! ### The other sections

Memories would be a vector too, but the handler never gets to its entries. The start section is one
index, and the type section allocates for each entry. -/

/-- `memory_cnt` -/
def memoryCntPart : Part LoadedModule UInt32 :=
  ⟨(·.memoryCnt), fun n m => { m with memoryCnt := n }, fun _ _ => rfl, fun _ _ _ => rfl,
    fun _ => rfl⟩

/-- `memories` -/
def memoriesPart : Part LoadedModule (List FwModuleMemory) :=
  ⟨(·.memories), fun l m => { m with memories := l }, fun _ _ => rfl, fun _ _ _ => rfl,
    fun _ => rfl⟩

/-- `fw_module_section_memory`. The test behind `fw_malloc` is the wrong way round: it jumps to
`err` when the array was allocated. The block is lost, for `module->memories` is set behind the
test. Since there is always room here, the loop over the entries is never reached. -/
def fwModuleSectionMemory : Load PUnit := do
  let memoryCnt ← onData (fwStrLebGetu32 mem)
  if memoryCnt ≠ 0 then do
    update fun m => { m with memoryCnt := memoryCnt }
    fail
  else pure ⟨⟩
  onData Parse.consumed

/-- `fw_module_section_start`. The index may be the number of functions itself, and imported ones
are not counted. -/
def fwModuleSectionStart : Load PUnit := do
  let funcIdx ← onData (fwStrLebGetu32 mem)
  if funcIdx ≠ 0 then do
    let s ← get
    check (¬ funcIdx > s.module.funcCnt)
    update fun m => { m with startFunc := funcIdx }
  else pure ⟨⟩
  onData Parse.consumed

/-- The next `n` bytes of the section, as value types; what types there are is not checked.
`fw_str_pass` comes before the bytes are copied, so they are all inside. -/
def fwTypeVals (n : ℕ) : Parse (List UInt8) := do
  let str ← get
  fwStrPass n
  pure (bytesAt mem str.pos n)

/-- One function type. The counts are stored as `uint8_t`, so 256 parameters are counted as none.
The array has all the value types, the parameters and then the results. -/
def fwTypeEntry : Parse FwModuleType := do
  let pre ← Parse.get8 mem
  check (pre = 0x60)
  let paramCnt ← fwStrLebGetu32 mem
  let tparam ← fwTypeVals mem paramCnt.toNat
  let resCnt ← fwStrLebGetu32 mem
  let tres ← fwTypeVals mem resCnt.toNat
  pure ⟨paramCnt.toUInt8, resCnt.toUInt8, tparam ++ tres⟩

/-- One more entry of `type`. The array has room for as many as were counted. -/
def LoadedModule.addType (t : FwModuleType) (module : LoadedModule) : LoadedModule :=
  { module with type := some (module.type.getD [] ++ [t]) }

/-- `fw_module_section_type`. The count is published even when it is 0, and then the array stays
what it was. So a second section may leave a count and an array that do not belong together. -/
def fwModuleSectionType : Load PUnit := do
  let typeCnt ← onData (fwStrLebGetu32 mem)
  update fun m => { m with typeCnt := typeCnt }
  if typeCnt ≠ 0 then do
    update fun m => { m with type := some [] }
    let _ ← collect (onData (fwTypeEntry mem) >>= fun t => update (.addType t)) typeCnt.toNat
  else pure ⟨⟩
  onData Parse.consumed

/-! ### Functions and their code

One loop over two sections. The code section is read from where `code_ref` points, and its own
handler does nothing. -/

/-- One group of local declarations: how many, and of which type. The source reads the two in two
loops with the same statements. -/
def fwLocalGroup : Parse (UInt32 × UInt8) := do
  let count ← fwStrLebGetu32 mem
  let valuetype ← fwStrLebGetu8 mem
  pure (count, valuetype)

/-- The types of the locals, group by group, one for each local. This is what the second loop
writes, one byte after the other. -/
def expandLocals (groups : List (UInt32 × UInt8)) : List UInt8 :=
  groups.flatMap fun g => List.replicate g.1.toNat g.2

/-- One entry of the code section: the types of the locals, their number and the body. The groups
are read twice, to count the locals and to store their types; then the cursor is put at the end
that the size of the entry gives. -/
def fwCodeEntry : Parse (List UInt8 × UInt32 × FwStr) := do
  let codesize ← fwStrLebGetu32 mem
  let code ← get
  let codeEnd := code.pos + codesize.toNat
  let localCnt ← fwStrLebGetu32 mem
  let codeStart ← get
  let groups ← collect (fwLocalGroup mem) localCnt.toNat
  let totalCnt := groups.foldl (fun total g => total + g.1) 0
  let body ← get
  Parse.seek codeStart.pos
  let groups ← collect (fwLocalGroup mem) localCnt.toNat
  let localType := expandLocals groups
  -- `local_type` has room for `total_cnt` bytes
  if localType.length > totalCnt.toNat then halt (.fault .badPtr)
  else do
    Parse.seek codeEnd
    pure (localType, totalCnt, ⟨body.pos, codeEnd⟩)

/-- The type index of a function, compared with the number of types, and `type[typeidx]`. The
comparison lets the number of types itself through, and the entry is then read from behind the
array, which is `none` here. With no array at all the source goes through a `NULL` pointer. -/
def fwFuncType : Load (Option FwModuleType) := do
  let typeidx ← onData (fwStrLebGetu32 mem)
  let s ← get
  check (¬ typeidx > s.module.typeCnt)
  match s.module.type with
  | none => halt (.fault .badPtr)
  | some types => pure types[typeidx.toNat]?

/-- One round of the loop of `fw_module_section_func`: a type index from the function section and an
entry of the code section. -/
def fwFuncEntry : Load PUnit := do
  let functype ← fwFuncType mem
  let (localType, localCnt, body) ← onCode (fwCodeEntry mem)
  update fun m => { m with funcs := m.funcs ++ [⟨localType, localCnt, functype, body⟩] }

/-- `fw_module_section_func`. It reads the code section beside its own, and moves the cursor of
both. The two counts must agree, and then as many entries are read. Nothing looks at whether the
code section ends there. -/
def fwModuleSectionFunc : Load PUnit := do
  let funcCnt ← onData (fwStrLebGetu32 mem)
  let codeCnt ← onCode (fwStrLebGetu32 mem)
  check (codeCnt = funcCnt)
  if funcCnt ≠ 0 then do
    update fun m => { m with funcCnt := funcCnt, funcs := [] }
    setFree
    let _ ← collect (fwFuncEntry mem) funcCnt.toNat
  else pure ⟨⟩
  onData Parse.consumed

/-- `fw_module_section_code`, which does nothing, as the code is read with the function section. In
a file without one the code is not read at all. -/
def fwModuleSectionCode : Load PUnit := pure ⟨⟩

/-! ### Imports

Two passes over the same bytes. The first counts by kind, the arrays are allocated, and the second
fills them. -/

/-- The counting pass over a descriptor. Of a table it reads the element type only. -/
def fwImportSkip : Option FwImportKind → Parse PUnit
  | some .func => do
    let _ ← fwStrLebGetu32 mem
  | some .table => do
    let _ ← fwStrLebGetu8 mem
  | some .memory => do
    let limits ← fwStrLebGetu32 mem
    let _ ← fwStrLebGetu32 mem
    let _ ← fwLimitsMax mem limits 0
  | some .global => do
    let _ ← fwStrLebGetu8 mem
    let _ ← fwStrLebGetu8 mem
  | none => pure ⟨⟩

/-- `import_cnt[kind]++`, for a byte that is a kind. The counts start from what earlier import
sections have left. -/
def LoadedModule.countImport (kind : Option FwImportKind) (module : LoadedModule) : LoadedModule :=
  match kind with
  | none => module
  | some kind => { module with
    importCnt := Function.update module.importCnt kind (module.importCnt kind + 1) }

/-- The arrays that the counts ask for: one for each kind with a count other than 0. -/
def LoadedModule.allocImports (module : LoadedModule) : LoadedModule :=
  let imports kind := if module.importCnt kind ≠ 0 then [] else module.imports kind
  { module with imports := imports }

/-- One more entry of `imports[kind]`, at the pointer that the source moves forward for each kind.
-/
def LoadedModule.addImport (kind : FwImportKind) (imp : LoadedImport) (module : LoadedModule) :
    LoadedModule :=
  { module with imports := Function.update module.imports kind (module.imports kind ++ [imp]) }

/-- The counting pass over one import. The names are passed over, their lengths compared with the
bytes left. -/
def fwImportCount : Load PUnit := do
  let kind ← onData do
    let mnameLen ← fwStrLebGetu32 mem
    fwStrPass mnameLen.toNat
    let nsnameLen ← fwStrLebGetu32 mem
    fwStrPass nsnameLen.toNat
    fwStrLebGetu8 mem
  let kind := FwImportKind.ofByte kind
  update (.countImport kind)
  onData (fwImportSkip mem kind)

/-- The descriptor of an import, in the filling pass. For a table this reads the limits as well,
which the counting pass does not, so behind a table the two passes are out of step. -/
def fwImportDesc : FwImportKind → Parse FwImportDesc
  | .func => do
    let typeidx ← fwStrLebGetu32 mem
    pure (.func typeidx)
  | .table => do
    let elemtype ← fwStrLebGetu8 mem
    let limits ← fwStrLebGetu32 mem
    let lmin ← fwStrLebGetu32 mem
    let lmax ← fwLimitsMax mem limits 0x1000
    pure (.table elemtype lmin lmax)
  | .memory => do
    let limits ← fwStrLebGetu32 mem
    let lmin ← fwStrLebGetu32 mem
    let lmax ← fwLimitsMax mem limits 0x1000
    pure (.memory lmin lmax)
  | .global => do
    let valtype ← fwStrLebGetu8 mem
    let mutable ← fwStrLebGetu8 mem
    pure (.global valtype mutable)

/-- A name of an import, which is copied and then passed over. In this order the copy may read
behind the section, as for an export. -/
def fwImportName : Parse (List UInt8) := do
  let len ← fwStrLebGetu32 mem
  let name ← fwMakeStr mem len.toNat
  fwStrPass len.toNat
  pure name

/-- The filling pass over one import. It writes through `imports[kind]` with no look at the kind,
at the array being there or at the room left in it. -/
def fwImportFill : Load PUnit := do
  let mname ← onData (fwImportName mem)
  let nsname ← onData (fwImportName mem)
  let kind ← onData (fwStrLebGetu8 mem)
  let s ← get
  match FwImportKind.ofByte kind with
  | none => halt (.fault .badPtr)
  | some kind =>
    if (s.module.imports kind).length < (s.module.importCnt kind).toNat then do
      let desc ← onData (fwImportDesc mem kind)
      update (.addImport kind ⟨mname, nsname, desc⟩)
    else halt (.fault .badPtr)

/-- `fw_module_section_import`: both passes, the second from where the first one began. -/
def fwModuleSectionImport : Load PUnit := do
  let importCnt ← onData (fwStrLebGetu32 mem)
  if importCnt ≠ 0 then do
    -- the counting pass runs over a copy of the cursor
    let body ← get
    let _ ← collect (fwImportCount mem) importCnt.toNat
    onData (Parse.seek body.sec.data.pos)
    update .allocImports
    setFree
    let _ ← collect (fwImportFill mem) importCnt.toNat
  else pure ⟨⟩
  onData Parse.consumed

/-- `fw_module_section_dummy`, the handler of custom sections, which are not looked at. -/
def fwModuleSectionDummy : Load PUnit := pure ⟨⟩

/-- `common_section_handler`: the handlers by section id, in the order of `FW_SECTION_TYPE`. Every
id that the loader lets through has one. -/
def commonSectionHandler : UInt8 → Option (Load PUnit)
  | 0 => some fwModuleSectionDummy
  | 1 => some (fwModuleSectionType mem)
  | 2 => some (fwModuleSectionImport mem)
  | 3 => some (fwModuleSectionFunc mem)
  | 4 => some (fwModuleSectionTable mem)
  | 5 => some (fwModuleSectionMemory mem)
  | 6 => some (fwModuleSectionGlobal mem)
  | 7 => some (fwModuleSectionExport mem)
  | 8 => some (fwModuleSectionStart mem)
  | 9 => some (fwModuleSectionElem mem)
  | 10 => some fwModuleSectionCode
  | 11 => some (fwModuleSectionData mem)
  | _ => none

/-- A call through `section_handler`, by the type of a section. A type without a handler does not
come from the loader. -/
def fwSectionHandler (type : UInt8) : Load PUnit :=
  (commonSectionHandler mem type).getD (halt (.fault .badPtr))

/-! ## The file

Loading finds the sections, and parsing calls their handlers. What is between the two is the list of
sections. -/

/-- The loop of `_fw_module_load`: the sections and `code_ref`, at most `n` of them. Every round
moves the cursor, so a round for every byte is enough. -/
def fwLoadSections : ℕ → Option FwStr → Parse (List FwModuleSection × Option FwStr)
  | 0, _ => halt .fuel
  | n + 1, codeRef => do
    let data ← get
    if data.pos < data.last then do
      let type ← Parse.get8 mem
      check (¬ type ≥ fwSectionTypeMax)
      let size ← fwStrLebGetu32 mem
      let data ← get
      let payload : FwStr := ⟨data.pos, data.pos + size.toNat⟩
      let codeRef := if type = fwSectionTypeCode then some payload else codeRef
      -- nothing compares the size with the bytes left
      Parse.seek payload.last
      let (sections, codeRef) ← fwLoadSections n codeRef
      pure (⟨type, payload, false⟩ :: sections, codeRef)
    else pure ([], codeRef)

/-- `_fw_module_load`; failing is returning `NULL`. The two words at the front are compared, the
sections are found, and one of them must be the code section. A size that leads behind the end of
the file is noticed at the end, where the cursor is compared with it. -/
def _fwModuleLoad : Parse LoadedModule := do
  let magic ← fwStrGet32 mem
  check (magic = fwMagicNumber)
  let version ← fwStrGet32 mem
  check (version = fwVersion)
  let data ← get
  let (sections, codeRef) ← fwLoadSections mem (data.last - data.pos + 1) none
  match codeRef with
  | none => fail
  | some codeRef => do
    Parse.consumed
    pure (.new sections codeRef)

/-- The loop of `fw_module_parse`: its status, and the sections as the handlers leave them. It stops
at the first handler that fails. -/
def fwParseSections :
    List FwModuleSection → Logged LoadEvent Halt LoadedModule (Status × List FwModuleSection)
  | [] => pure (.ok, [])
  | sec :: rest => fun module =>
    let run := fwSectionHandler mem sec.type ⟨module, sec⟩
    match run.res with
    | .error h => ⟨run.log, .error h⟩
    | .ok (none, s) => ⟨run.log, .ok ((.err, s.sec :: rest), s.module)⟩
    | .ok (some _, s) =>
      let run' := fwParseSections rest s.module
      match run'.res with
      | .error h => ⟨run.log ++ run'.log, .error h⟩
      | .ok ((status, rest'), module') =>
        ⟨run.log ++ run'.log, .ok ((status, s.sec :: rest'), module')⟩

/-- `fw_module_parse`: the status and the module. The module comes back with its sections as the
handlers have left them, with moved cursors and destructors set. -/
def fwModuleParse (module : LoadedModule) : Except Halt (Status × LoadedModule) :=
  match (fwParseSections mem module.sections module).res with
  | .error h => .error h
  | .ok ((status, sections), module') => .ok (status, { module' with sections := sections })

/-- `fw_module_load` of what `fw_file_read` returned. The status of `fw_module_parse` is dropped, so
a module that was parsed in part is returned like any other. `NULL` comes back only where there is
no file or `_fw_module_load` fails. -/
def fwModuleLoad (file : Option FwStr) : Except Halt (Option LoadedModule) :=
  match file with
  | none => .ok none
  | some data =>
    match (_fwModuleLoad mem data).res with
    | .error h => .error h
    | .ok (none, _) => .ok none
    | .ok (some module, _) =>
      match fwModuleParse mem module with
      | .error h => .error h
      | .ok (_, module) => .ok (some module)

end Handlers

end FastWasm
