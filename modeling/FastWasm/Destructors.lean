import FastWasm.Ownership
import FastWasm.ParseStatus

/-!
# The blocks of a module and its destructors (`module/fw_loader.c`)

Behind the entries of a `LoadedModule` stand blocks on the heap. The heap of a module that was
parsed follows from what the handlers have decoded (`fwModuleHeap`): every handler allocates its
arrays and, for their entries, the blocks these point to, and stores the pointers in the module.
`fw_module_free` then works on the pointers and on the counts of the module.

A block is known by what it was allocated for and by the number of the section whose handler
allocated it, so two allocations never give the same block. An entry of an array is the list of the
pointers that its destructor frees, in this order.

The destructors differ in what an entry points to and in the count that they go by, so all but one
are `fwFreeArray` at their own values. The loop over element segments goes by the number of
functions, as the source has it; an array that is shorter than that is read behind its end, which is
a fault here.
-/

namespace FastWasm

open Logged (get set emit)
open Ownership

/-! ## The heap

The heap is written as a function of the modules that the handlers leave, and not by letting the
handlers allocate. What they allocate is fixed by what they decode, since no allocation fails. -/

/-- The arrays of a module, of which imports have one for each kind. -/
inductive FwArray where
  /-- `type` -/
  | type
  /-- `imports[kind]` -/
  | imports (kind : FwImportKind)
  /-- `funcs` -/
  | funcs
  /-- `tables` -/
  | tables
  /-- `memories` -/
  | memories
  /-- `globals` -/
  | globals
  /-- `exports` -/
  | exports
  /-- `elems` -/
  | elems
  /-- `datas` -/
  | datas
  deriving DecidableEq, Repr

/-- The blocks of a module: the module and its sections, the arrays, and what the entries of the
arrays point to. -/
inductive FwAddr where
  /-- the module -/
  | module
  /-- the bytes of the file -/
  | filedata
  /-- section number `i` -/
  | node (i : ℕ)
  /-- an array, allocated for section number `i` -/
  | array (arr : FwArray) (i : ℕ)
  /-- what pointer `c` of entry `j` of that array points to -/
  | cell (arr : FwArray) (i j c : ℕ)
  deriving DecidableEq, Repr

/-- The count that belongs to an array, as the module has it. -/
def FwArray.count (module : LoadedModule) : FwArray → ℕ
  | .type => module.typeCnt.toNat
  | .imports kind => (module.importCnt kind).toNat
  | .funcs => module.funcCnt.toNat
  | .tables => module.tableCnt.toNat
  | .memories => module.memoryCnt.toNat
  | .globals => module.globalCnt.toNat
  | .exports => module.exportCnt.toNat
  | .elems => module.elemCnt.toNat
  | .datas => module.dataCnt.toNat

/-- The pointers in entry `j` of an array that was allocated for section number `i`. -/
def fwEntryCells (module : LoadedModule) (i : ℕ) : FwArray → ℕ → List (Cell FwAddr)
  | .type, j => [.ptr (.cell .type i j 0)]
  -- `u.func.f` when `free` is set, `mname` and `nsname`; what was counted and not filled is zero
  | .imports kind, j =>
    if j < (module.imports kind).length then
      (if kind = .func then [.ptr (.cell (.imports kind) i j 0)] else []) ++
        [.ptr (.cell (.imports kind) i j 1), .ptr (.cell (.imports kind) i j 2)]
    else [.null, .null]
  -- `local_type` and `locals`; the list `blk` is empty
  | .funcs, j => [.ptr (.cell .funcs i j 0), .null]
  -- `name`
  | .exports, j => [.ptr (.cell .exports i j 0)]
  -- `funcs`, which is not written for a segment of no functions
  | .elems, j =>
    if (module.elems[j]?.any fun elem => elem.funcCnt ≠ 0) then [.ptr (.cell .elems i j 0)]
    else [.indet]
  | .tables, _ => []
  | .memories, _ => []
  | .globals, _ => []
  | .datas, _ => []

/-- An array that was allocated for section number `i`. -/
def fwArrayBlock (module : LoadedModule) (i : ℕ) (arr : FwArray) : Block FwAddr :=
  ⟨.array arr i, (List.range (arr.count module)).map (fwEntryCells module i arr)⟩

/-- The pointers of a module, and every block that was allocated for it, whether a pointer leads to
it or not. -/
structure FwHeap where
  /-- the arrays -/
  array : FwArray → Option (Block FwAddr)
  /-- `filedata` -/
  filedata : Cell FwAddr
  /-- the allocations -/
  allocs : List FwAddr

/-- The heap that `_fw_module_load` leaves for a module of `n` sections, with the bytes of the file,
which `fw_module_load` hands over. -/
def FwHeap.new (n : ℕ) : FwHeap where
  array _ := none
  filedata := .ptr .filedata
  allocs := .filedata :: .module :: (List.range n).map .node

/-- An array is allocated, with what its entries point to, and stored in the module. -/
def FwHeap.alloc (module : LoadedModule) (i : ℕ) (heap : FwHeap) (arr : FwArray) : FwHeap where
  array := Function.update heap.array arr (some (fwArrayBlock module i arr))
  filedata := heap.filedata
  allocs := heap.allocs ++ (fwArrayBlock module i arr).addrs

/-- The kinds, in the order of `FW_IMPORT_KIND`, which is that of the loop over them. -/
def FwImportKind.all : List FwImportKind := [.func, .table, .memory, .global]

/-- The arrays that a handler has allocated when it returns `FW_OK`. Where it sets `free`, it does
so for a count other than 0, as it allocates. -/
def fwSectionArrays (s : LoadState) : List FwArray :=
  match s.sec.type with
  | 1 => if s.module.typeCnt ≠ 0 then [.type] else []
  | 2 =>
    if s.sec.free then
      (FwImportKind.all.filter fun kind => s.module.importCnt kind ≠ 0).map .imports
    else []
  | 3 => if s.sec.free then [.funcs] else []
  | 4 => if s.sec.free then [.tables] else []
  | 6 => if s.sec.free then [.globals] else []
  | 7 => if s.sec.free then [.exports] else []
  | 9 => if s.sec.free then [.elems] else []
  | 11 => if s.sec.free then [.datas] else []
  -- `memory` returns `FW_OK` for a count of 0 only; the others have no array
  | _ => []

/-- The heap behind the handler of section number `i`, whose arrays replace those that the module
pointed to. -/
def fwSectionHeap (i : ℕ) (s : LoadState) (heap : FwHeap) : FwHeap :=
  (fwSectionArrays s).foldl (FwHeap.alloc s.module i) heap

/-- The loop of `fw_module_parse`, for the heap, from section number `i` on. -/
def fwParseHeap (mem : Mem) : ℕ → List FwModuleSection → LoadedModule → FwHeap → FwHeap
  | _, [], _, heap => heap
  | i, sec :: rest, module, heap =>
    match (fwSectionHandler mem sec.type ⟨module, sec⟩).res with
    | .ok (some _, s) => fwParseHeap mem (i + 1) rest s.module (fwSectionHeap i s heap)
    | _ => heap

/-- The heap of a module whose handlers all return `FW_OK`. -/
def fwModuleHeap (mem : Mem) (loaded : LoadedModule) : FwHeap :=
  fwParseHeap mem 0 loaded.sections loaded (.new loaded.sections.length)

/-! ## The destructors

Each of them is one call of `fwFreeArray`, at its array and its count. Where a destructor frees the
array without looking at the entries, its count is 0 here. -/

/-- A destructor, or a part of one, over the pointers of the module. -/
abbrev FwFree (α : Type) : Type := Logged (Use FwAddr) Halt FwHeap α

/-- `fw_free`, which may be given `NULL`; a pointer that was never set is a fault. -/
def fwFree (c : Cell FwAddr) : FwFree PUnit := free (.fault .badPtr) c

/-- The shape of the destructors: what the entries below a count point to is freed, and then the
array. -/
def fwFreeArray (arr : FwArray) (cnt : ℕ) : FwFree PUnit := do
  let heap ← get
  freeArray (.fault .badPtr) (heap.array arr) cnt

/-- `fw_module_section_func_free` -/
def fwModuleSectionFuncFree (module : LoadedModule) : FwFree PUnit :=
  fwFreeArray .funcs module.funcCnt.toNat

/-- One round of the loop of `fw_module_section_imports_free`, for the imports of one kind. -/
def fwImportsFreeKind (module : LoadedModule) (kind : FwImportKind) : FwFree PUnit := do
  fwFreeArray (.imports kind) (module.importCnt kind).toNat
  let heap ← get
  set { heap with array := Function.update heap.array (.imports kind) none }

/-- `fw_module_section_imports_free`, which goes over the kinds and forgets each array that it has
freed. -/
def fwModuleSectionImportsFree (module : LoadedModule) : FwFree PUnit :=
  forEach (fwImportsFreeKind module) FwImportKind.all

/-- `fw_module_section_table_free` -/
def fwModuleSectionTableFree (_ : LoadedModule) : FwFree PUnit := fwFreeArray .tables 0

/-- `fw_module_section_memory_free` -/
def fwModuleSectionMemoryFree (_ : LoadedModule) : FwFree PUnit := fwFreeArray .memories 0

/-- `fw_module_section_global_free` -/
def fwModuleSectionGlobalFree (_ : LoadedModule) : FwFree PUnit := fwFreeArray .globals 0

/-- `fw_module_section_export_free` -/
def fwModuleSectionExportFree (module : LoadedModule) : FwFree PUnit :=
  fwFreeArray .exports module.exportCnt.toNat

/-- `fw_module_section_elem_free`. The loop over the segments runs to the number of functions. -/
def fwModuleSectionElemFree (module : LoadedModule) : FwFree PUnit :=
  fwFreeArray .elems module.funcCnt.toNat

/-- `fw_module_section_data_free` -/
def fwModuleSectionDataFree (_ : LoadedModule) : FwFree PUnit := fwFreeArray .datas 0

/-- A call of `section->free`, where it is set. -/
def fwSectionFree (module : LoadedModule) : UInt8 → FwFree PUnit
  | 2 => fwModuleSectionImportsFree module
  | 3 => fwModuleSectionFuncFree module
  | 4 => fwModuleSectionTableFree module
  | 5 => fwModuleSectionMemoryFree module
  | 6 => fwModuleSectionGlobalFree module
  | 7 => fwModuleSectionExportFree module
  | 9 => fwModuleSectionElemFree module
  | 11 => fwModuleSectionDataFree module
  -- no handler sets it for another type
  | _ => Logged.halt (.fault .badPtr)

/-- One round of the loop of `fw_module_free`: the section is taken off the list, its destructor is
called and it is freed. -/
def fwFreeNode (module : LoadedModule) (node : FwModuleSection × ℕ) : FwFree PUnit := do
  emit (.touch (.node node.2) 0)
  if node.1.free then fwSectionFree module node.1.type else pure ⟨⟩
  emit (.free (.node node.2))

/-- `fw_module_free`. The types are freed here, since no section has a destructor for them, and then
the bytes of the file and the module. -/
def fwModuleFree (module : LoadedModule) : FwFree PUnit := do
  forEach (fwFreeNode module) module.sections.zipIdx
  fwFreeArray .type module.typeCnt.toNat
  let heap ← get
  fwFree heap.filedata
  fwFree (.ptr .module)

end FastWasm
