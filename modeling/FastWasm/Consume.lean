import FastWasm.Instr
import FastWasm.Logged
import Mathlib.Logic.Function.Basic

/-!
# The validator (`fw_instr_consume_*`, `fw_module_validate_inst`)

A linear walk over the bytes of a function. It logs the positions at which it fetches an opcode, and
its state is the block lists of the function. The statuses of the handlers are dropped by the walk,
as they are in the source.

A handler gets the cursor behind the opcode and moves it over the immediates that it reads. `block`,
`loop` and `if` open an entry in `blktmp`, and `if` puts it into `iftmp` too; `else` takes the last
entry of `iftmp`, and `end` the last of `blktmp`. Nothing connects the two lists: an `if` that is
closed stays in `iftmp` when it had no `else`.

An `else` that finds `iftmp` empty is not refused. `list_entry` makes an entry out of the list head,
`list_del` poisons the head, and the position is written into `blk.prev`. The walk goes on, and what
it can still do is modelled (`FuncBlks.stray`): only when an `end` would link an entry through the
position does the model stop, for then the handler writes over the bytes that it is about to read.
-/

namespace FastWasm

open Logged

/-- A step of the validator. -/
abbrev Walk (α : Type) : Type := Logged ℕ Halt FuncBlks α

/-! ## The block lists

`list_add_tail` appends, `prev` of the head is the last element and `list_del` of it drops it. -/

namespace FuncBlks

/-- Overwrite the entry at an address, in whatever lists it is. -/
def setEntry (s : FuncBlks) (id : ℕ) (b : FwModuleFuncBlock) : FuncBlks :=
  { s with entry := Function.update s.entry id b }

/-- `fw_calloc` an entry and add it to `blktmp`. -/
def openBlk (s : FuncBlks) : FuncBlks :=
  { s with
    entry := Function.update s.entry s.fresh .zero
    fresh := s.fresh + 1
    blktmp := s.blktmp ++ [s.fresh] }

/-- Set the start and the type of an entry. -/
def setStart (s : FuncBlks) (id pos : ℕ) (type : UInt8) : FuncBlks :=
  s.setEntry id { s.entry id with start := some pos, type := type }

/-- Add an entry to `iftmp`. -/
def pushIf (s : FuncBlks) (id : ℕ) : FuncBlks := { s with iftmp := s.iftmp ++ [id] }

/-- Take the last entry off `iftmp` and set its `els`. -/
def popIf (s : FuncBlks) (id pos : ℕ) : FuncBlks :=
  { s.setEntry id { s.entry id with els := some pos } with iftmp := s.iftmp.dropLast }

/-- Take the last entry off `blktmp`, set its `end`, and its `els` too when there was no `else`;
then `fw_instr_insert_blk`. -/
def closeBlk (s : FuncBlks) (id pos : ℕ) : FuncBlks :=
  let b := s.entry id
  { s.setEntry id { b with fin := some pos, els := if b.els = none then some pos else b.els } with
    blktmp := s.blktmp.dropLast
    blk := s.blk ++ [id] }

/-- What an `else` without a pending `if` does to the function: `iftmp` is poisoned and `blk.prev`
is set to the position. -/
def goAstray (s : FuncBlks) (pos : ℕ) : FuncBlks := { s with stray := some pos }

end FuncBlks

/-! ## Immediates

Each of these handlers reads so many numbers and drops them. An error in one of them is dropped too,
mostly by the handler itself. -/

/-- The cursor after a read: behind the number, or unmoved at `str_err`. -/
def LebRead.next (str : FwStr) : LebRead → Option FwStr
  | .hang => none
  | .strErr => some str
  | .got _ str' => some str'

/-- A handler that reads one number; `onErr` is what it returns at `str_err`, with the cursor where
it was. -/
def fwInstrConsumeLeb (mem : Mem) (maxbit : ℕ) (onErr : Status) (body : FwStr) :
    Walk (Status × FwStr) :=
  match fwStrLebGetu mem body maxbit with
  | .hang => halt .hang
  | .strErr => pure (onErr, body)
  | .got _ body => pure (.ok, body)

/-- `fw_instr_consume_64`. Its `str_err` returns `FW_OK` too. -/
def fwInstrConsume64 (mem : Mem) (body : FwStr) : Walk (Status × FwStr) :=
  fwInstrConsumeLeb mem 64 .ok body

/-- `fw_instr_consume_32`. Its `str_err` returns `FW_OK` too. -/
def fwInstrConsume32 (mem : Mem) (body : FwStr) : Walk (Status × FwStr) :=
  fwInstrConsumeLeb mem 32 .ok body

/-- `fw_instr_consume_rtype`, which reads the block type as a number of 32 bits. -/
def fwInstrConsumeRtype (mem : Mem) (body : FwStr) : Walk (Status × FwStr) :=
  fwInstrConsumeLeb mem 32 .err body

/-- `fw_instr_consume_none`, which most rows have: nothing is read. -/
def fwInstrConsumeNone (body : FwStr) : Walk (Status × FwStr) := pure (.ok, body)

/-- The `while(blknum--)` of `fw_instr_consume_brtbl`: `true` when it ran to its end, `false` when
a read jumped to `str_err`, `none` when one never ends. -/
def fwInstrConsumeBrtblLoop (mem : Mem) : ℕ → FwStr → Option (Bool × FwStr)
  | 0, body => some (true, body)
  | blknum + 1, body =>
    match fwStrLebGetu mem body 32 with
    | .hang => none
    | .strErr => some (false, body)
    | .got _ body => fwInstrConsumeBrtblLoop mem blknum body

/-- `fw_instr_consume_brtbl`: a count, that many labels, and the default label. -/
def fwInstrConsumeBrtbl (mem : Mem) (body : FwStr) : Walk (Status × FwStr) :=
  match fwStrLebGetu mem body 32 with
  | .hang => halt .hang
  | .strErr => pure (.ok, body)
  | .got blknum body =>
    match fwInstrConsumeBrtblLoop mem blknum.toUInt32.toNat body with
    | none => halt .hang
    | some (false, body) => pure (.ok, body)
    | some (true, body) => fwInstrConsumeLeb mem 32 .ok body

/-! ## Blocks

The three lists change here and nowhere else. -/

/-- `fw_instr_consume_block`, for `block` and `loop`: an entry is opened before the block type is
read, and its start is the position behind the type. -/
def fwInstrConsumeBlock (mem : Mem) (code : UInt8) (body : FwStr) : Walk (Status × FwStr) := do
  let s ← get
  let blk := s.fresh
  -- in `blktmp` before the block type is read, and left there when that fails
  set s.openBlk
  let (status, body) ← fwInstrConsumeRtype mem body
  match status with
  | .err => pure (.err, body)
  | .ok => do
    let s ← get
    set (s.setStart blk body.pos code)
    pure (.ok, body)

/-- `fw_instr_consume_if`: as for a block, and then the entry just opened is put into `iftmp` as
well. -/
def fwInstrConsumeIf (mem : Mem) (code : UInt8) (body : FwStr) : Walk (Status × FwStr) := do
  let (status, body) ← fwInstrConsumeBlock mem code body
  match status with
  | .err => pure (.err, body)
  | .ok => do
    let s ← get
    match s.blktmp.getLast? with
    | none => halt (.fault .badPtr)
    | some blk =>
      match s.stray with
      -- `list_add_tail` writes through the poison in `iftmp.prev`
      | some _ => halt (.fault .badPtr)
      | none => do
        set (s.pushIf blk)
        pure (.ok, body)

/-- `fw_instr_consume_else`: the entry is the last of `iftmp`, whichever `if` that is. When there is
none, `list_entry` is applied to the list head, and the handler writes into the function itself. -/
def fwInstrConsumeElse (body : FwStr) : Walk (Status × FwStr) := do
  let s ← get
  match s.iftmp.getLast? with
  | none =>
    match s.stray with
    -- `list_del` reads through the poison in `iftmp.prev`
    | some _ => halt (.fault .badPtr)
    | none => do
      set (s.goAstray body.pos)
      pure (.ok, body)
  | some blk => do
    set (s.popIf blk body.pos)
    pure (.ok, body)

/-- `fw_instr_consume_end`. With no open block it is the end of the function. -/
def fwInstrConsumeEnd (body : FwStr) : Walk (Status × FwStr) := do
  let s ← get
  match s.blktmp.getLast? with
  | none => if body.pos ≠ body.last then pure (.err, body) else pure (.ok, body)
  | some blk =>
    match s.stray with
    -- `fw_instr_insert_blk` stores the address of the entry over the eight bytes at this position
    | some _ => halt (.fault .overBytes)
    | none => do
      set (s.closeBlk blk body.pos)
      pure (.ok, body)

/-- A call through the `consume` pointer of a row. -/
def ConsumeFn.consume (mem : Mem) (code : UInt8) : ConsumeFn → FwStr → Walk (Status × FwStr)
  | .none_ => fwInstrConsumeNone
  | .c32 => fwInstrConsume32 mem
  | .c64 => fwInstrConsume64 mem
  | .brtbl => fwInstrConsumeBrtbl mem
  | .block => fwInstrConsumeBlock mem code
  | .if_ => fwInstrConsumeIf mem code
  | .else_ => fwInstrConsumeElse
  | .end_ => fwInstrConsumeEnd

/-! ## The walk

The cursor is at an opcode, or at the end. An opcode is looked up in the table of rows and its
handler moves the cursor. One from `FW_INSTR_MAX` on has no row; it is passed over in silence, and
the walk goes on behind it. -/

/-- The loop of `fw_module_validate_inst`: the cursor it ends with, `none` at `str_err`. Every
round moves the cursor, so `last - pos + 1` rounds are enough (`walk_ne_fuel`). -/
def fwModuleValidateLoop (mem : Mem) : ℕ → FwStr → Walk (Option FwStr)
  | 0, _ => halt .fuel
  | n + 1, body =>
    if body.pos < body.last then
      match fwStrGet8 mem body with
      | none => pure none
      | some (opcode, next) => do
        emit body.pos
        match fwGetInstr opcode with
        -- an unknown opcode is passed over in silence
        | none => fwModuleValidateLoop mem n next
        | some instr =>
          match instr.consume with
          | none => halt (.fault .nullHandler)
          | some fn => do
            let (_, next) ← fn.consume mem instr.code next
            fwModuleValidateLoop mem n next
    else pure (some body)

/-- The loop with rounds enough: each moves the cursor, so one for every byte will do. -/
def fwModuleValidateWalk (mem : Mem) (body : FwStr) : Walk (Option FwStr) :=
  fwModuleValidateLoop mem (body.last - body.pos + 1) body

/-- `fw_module_validate_inst`. The labels `err` and `str_err` return `FW_OK` as well, so when it
returns it returns `FW_OK`, whatever the walk has met. -/
def fwModuleValidateInst (mem : Mem) (body : FwStr) : Walk Status := do
  match ← fwModuleValidateWalk mem body with
  | none => pure .ok
  | some next => if next.pos ≠ body.last then pure .ok else pure .ok

end FastWasm
