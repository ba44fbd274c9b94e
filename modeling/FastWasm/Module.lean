import FastWasm.Str

/-!
# The data of a module (`module/fw_module.h`)

Functions, their types and their block entries. The lists `blktmp`, `iftmp` and `blk` of a function
are intrusive: they link the same allocated entries, so an entry is an address into `entry` and the
lists are lists of addresses. A pointer that may be `NULL` is an `Option`.

What the source can do besides returning is a `Halt`: `exit(-1)`, a loop that never ends, undefined
behaviour (`Fault`), and the step bound of the model. A theorem that says that something returns
excludes all of them, and one that holds of every run says what has happened up to the halt.

The lists as addresses are one level above the C code, which has list heads with two pointers. A
validator over the pointers themselves is a second model, and the two are connected by a refinement.
-/

namespace FastWasm

/-- `FW_ERR` and `FW_OK`. A handler that returns `FW_ERR` need not be heard: its caller may drop the
status. -/
inductive Status where
  /-- `FW_ERR` -/
  | err
  /-- `FW_OK` -/
  | ok
  deriving DecidableEq, Repr

/-- Undefined behaviour: what the source reaches for is not there. What a C program does then is not
modelled, and a run that comes to such a place halts. -/
inductive Fault where
  /-- a call through a `NULL` handler of the instruction table -/
  | nullHandler
  /-- a list pointer that is written over the bytes of a function body -/
  | overBytes
  /-- a local index past the end of the locals block -/
  | localIdx
  /-- a function index past the end of `funcs` -/
  | funcIdx
  /-- an access or a `free` through a pointer that is `NULL`, dangling or indeterminate -/
  | badPtr
  deriving DecidableEq, Repr

/-- Why a run stops without returning. Only the last of the reasons is the model's own. -/
inductive Halt where
  /-- `exit(-1)` -/
  | exit
  /-- a loop of the source that never ends -/
  | hang
  /-- undefined behaviour -/
  | fault (f : Fault)
  /-- the model's step bound, not a behaviour of the source -/
  | fuel
  deriving DecidableEq, Repr

/-- `FW_MAX_STACK_SIZE`, the number of slots of the operand stack. -/
def fwMaxStackSize : ℕ := 4096

/-- `FW_I32` of `FW_VALUE_TYPE`, the tag that a local gets whatever its type. -/
def fwI32 : UInt8 := 0x7F

/-- `FW_I64` of `FW_VALUE_TYPE` -/
def fwI64 : UInt8 := 0x7E

/-- `FW_F32` of `FW_VALUE_TYPE` -/
def fwF32 : UInt8 := 0x7D

/-- `FW_F64` of `FW_VALUE_TYPE` -/
def fwF64 : UInt8 := 0x7C

/-- `fw_module_type_t`: `val` holds the parameter types followed by the result types. -/
structure FwModuleType where
  /-- the number of parameters -/
  paramCnt : UInt8
  /-- the number of results -/
  resCnt : UInt8
  /-- the types, parameters first -/
  val : List UInt8
  deriving DecidableEq, Repr

/-- `fw_module_func_block_t`: the boundaries of one block, `NULL` until they are met. The validator
fills them in as it comes to the opcodes. -/
structure FwModuleFuncBlock where
  /-- behind the block type -/
  start : Option ℕ
  /-- behind the `else`, or the end when there is none -/
  els : Option ℕ
  /-- behind the `end` -/
  fin : Option ℕ
  /-- the opcode that opened it -/
  type : UInt8
  deriving DecidableEq, Repr

/-- What `fw_calloc` returns for a block entry: no boundary is known, and `NULL` is compared with in
places to find out. -/
def FwModuleFuncBlock.zero : FwModuleFuncBlock := ⟨none, none, none, 0⟩

/-- The block entries of a function, and the lists that link them.

An `else` that meets an empty `iftmp` takes the list head itself for the `ifnode` of an entry. The
entry would then start at `&func->blktmp`, its `ifnode` is the head of `iftmp`, which `list_del`
leaves poisoned, and its `els` is `func->blk.prev`, which is set to the position behind the `else`.
That position is kept in `stray`. The three lists are as they were when they are read forwards, but
nothing can be put into `iftmp` any more, and what is put into `blk` is linked through that
position, that is, over the bytes of the body. -/
structure FuncBlks where
  /-- the entry at an address -/
  entry : ℕ → FwModuleFuncBlock
  /-- the next address to allocate -/
  fresh : ℕ
  /-- the blocks still open -/
  blktmp : List ℕ
  /-- the `if` blocks whose `else` was not met -/
  iftmp : List ℕ
  /-- the closed blocks -/
  blk : List ℕ
  /-- the position that an `else` without a pending `if` has left in `blk.prev` -/
  stray : Option ℕ

/-- The lists as `INIT_LIST_HEAD` leaves them, and no entry allocated. The loader leaves every
function with these. -/
def FuncBlks.init : FuncBlks := ⟨fun _ => .zero, 0, [], [], [], none⟩

/-- `fw_module_func_t`, of a function that is defined or imported. For an imported one only
`functype` and `host_addr` are set, and what runs it looks at `host_addr` first. The types of the
locals are left out, which nothing reads when the function is run. -/
structure FwModuleFunc where
  /-- the number of declared locals -/
  localCnt : UInt32
  /-- the function's type -/
  functype : FwModuleType
  /-- the bytes of its instructions -/
  body : FwStr
  /-- the address of the host function, for an import -/
  hostAddr : Option ℕ
  /-- the block entries -/
  blks : FuncBlks

/-- `fw_instr_find_blk`: the first closed block that starts at `start`. The executor calls it with
the position behind a block type, and the search is over all blocks of the function. -/
def fwInstrFindBlk (blks : FuncBlks) (start : ℕ) : Option FwModuleFuncBlock :=
  (blks.blk.map blks.entry).find? fun pos => pos.start = some start

/-- A block that was found starts where it was looked for. -/
theorem start_of_find {blks : FuncBlks} {start : ℕ} {b : FwModuleFuncBlock}
    (h : fwInstrFindBlk blks start = some b) : b.start = some start := by
  simpa using List.find?_some h

/-- A block that was found is in the list of closed blocks. -/
theorem mem_of_find {blks : FuncBlks} {start : ℕ} {b : FwModuleFuncBlock}
    (h : fwInstrFindBlk blks start = some b) : ∃ id ∈ blks.blk, blks.entry id = b := by
  simpa using List.mem_of_find?_eq_some h

/-- A closed block is found by its start when no other one starts there. The search goes through the
list from its front, so that with two of them the first would be found. -/
theorem find_of_unique {blks : FuncBlks} {id start : ℕ} (hid : id ∈ blks.blk)
    (hstart : (blks.entry id).start = some start)
    (hunique : ∀ j ∈ blks.blk, (blks.entry j).start = some start → j = id) :
    fwInstrFindBlk blks start = some (blks.entry id) := by
  cases hf : fwInstrFindBlk blks start with
  | none =>
    have hnone := List.find?_eq_none.mp hf (blks.entry id) (List.mem_map_of_mem hid)
    exact absurd (by simpa using hstart) hnone
  | some b =>
    obtain ⟨j, hj, rfl⟩ := mem_of_find hf
    rw [hunique j hj (start_of_find hf)]

end FastWasm
