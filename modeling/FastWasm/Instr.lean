import FastWasm.Module

/-!
# The instruction table (`instr/fw_instr.h`, `common_instr_handler`)

One row an opcode: a handler that runs it and a handler that validates it. The two function pointers
of a row are the enumerations `RunFn` and `ConsumeFn`, `none` for `NULL`. The names of the rows are
not read by any function and are left out.

The table is a function on all bytes. An opcode from `FW_INSTR_MAX` on is unknown to `fw_get_instr`
and gets no row at all; one below it that the table of the source leaves out has a row of zeros,
whose pointers are `NULL`. The two cases matter: the first is passed over in silence, and the second
is a call through `NULL`.

What the two columns have to do with each other is a theorem (`row_decoder`): an opcode that can be
run is one that the validator reads with the handler for it. It is checked on all 256 bytes.
-/

namespace FastWasm

/-! ## Opcodes

Those that some handler or some proof names. The others are numbers in the table of rows. -/

/-- `FW_INSTR_BLOCK` -/
@[match_pattern] abbrev fwInstrBlock : UInt8 := 0x02

/-- `FW_INSTR_LOOP` -/
@[match_pattern] abbrev fwInstrLoop : UInt8 := 0x03

/-- `FW_INSTR_IF` -/
@[match_pattern] abbrev fwInstrIf : UInt8 := 0x04

/-- `FW_INSTR_ELSE` -/
@[match_pattern] abbrev fwInstrElse : UInt8 := 0x05

/-- `FW_INSTR_END` -/
@[match_pattern] abbrev fwInstrEnd : UInt8 := 0x0b

/-- `FW_INSTR_CALL_INDIRECT` -/
@[match_pattern] abbrev fwInstrCallIndirect : UInt8 := 0x11

/-- `FW_INSTR_I32_LOAD` -/
@[match_pattern] abbrev fwInstrI32Load : UInt8 := 0x28

/-- `FW_INSTR_F32_CONST` -/
@[match_pattern] abbrev fwInstrF32Const : UInt8 := 0x43

/-- `FW_INSTR_F64_CONST` -/
@[match_pattern] abbrev fwInstrF64Const : UInt8 := 0x44

/-- `FW_INSTR_MAX`, one more than `FW_INSTR_F64_REINTERPRET_I64`, which is the number of rows. -/
def fwInstrMax : UInt8 := 0xc0

/-! ## The rows

`common_instr_handler` has a row for every opcode below `FW_INSTR_MAX`, and those that its
initialiser leaves out are zeros. A row is looked up by its opcode. -/

/-- The functions the `run` column points to, each under its own name. Rows for which the column is
`NULL` are those of instructions that are not implemented. -/
inductive RunFn where
  | block
  | loop
  | if_
  | else_
  | end_
  | return_
  | call
  | drop
  | select
  | localGet
  | localSet
  | localTee
  | i32Const
  | i64Const
  | f32Const
  | f64Const
  | i32Eqz
  | i32Eq
  | i32Ne
  | gtS
  deriving DecidableEq, Repr

/-- The functions the `consume` column points to. Many opcodes share one: what it reads is a shape
of immediates. -/
inductive ConsumeFn where
  | none_
  | c32
  | c64
  | brtbl
  | block
  | if_
  | else_
  | end_
  deriving DecidableEq, Repr

/-- `fw_instr_t`, without the name of the instruction. A handler gets its own row, and
`fw_instr_consume_block` takes the opcode from it. -/
structure FwInstr where
  /-- the opcode -/
  code : UInt8
  /-- the handler that runs it -/
  run : Option RunFn
  /-- the handler that validates it -/
  consume : Option ConsumeFn
  deriving DecidableEq, Repr

/-- `common_instr_handler`. The rows from `FW_INSTR_I32_EQZ` (0x45) to
`FW_INSTR_F64_REINTERPRET_I64` (0xbf) are all there and all have `fw_instr_consume_none`; those
not listed here are not implemented. An opcode without a row, `FW_INSTR_NOP` and the memory
instructions but `FW_INSTR_I32_LOAD` among them, has the zero row of a static array. -/
def commonInstrHandler (opcode : UInt8) : FwInstr :=
  match opcode.toNat with
  | 0x00 => ⟨0x00, none, some .none_⟩
  | 0x02 => ⟨0x02, some .block, some .block⟩
  | 0x03 => ⟨0x03, some .loop, some .block⟩
  | 0x04 => ⟨0x04, some .if_, some .if_⟩
  | 0x05 => ⟨0x05, some .else_, some .else_⟩
  | 0x0b => ⟨0x0b, some .end_, some .end_⟩
  | 0x0c => ⟨0x0c, none, some .c32⟩
  | 0x0d => ⟨0x0d, none, some .c32⟩
  | 0x0e => ⟨0x0e, none, some .brtbl⟩
  | 0x0f => ⟨0x0f, some .return_, some .none_⟩
  | 0x10 => ⟨0x10, some .call, some .c32⟩
  | 0x11 => ⟨0x11, none, some .c32⟩
  | 0x1a => ⟨0x1a, some .drop, some .none_⟩
  | 0x1b => ⟨0x1b, some .select, some .none_⟩
  | 0x20 => ⟨0x20, some .localGet, some .c32⟩
  | 0x21 => ⟨0x21, some .localSet, some .c32⟩
  | 0x22 => ⟨0x22, some .localTee, some .c32⟩
  | 0x23 => ⟨0x23, none, some .c32⟩
  | 0x24 => ⟨0x24, none, some .c32⟩
  | 0x28 => ⟨0x28, none, some .c32⟩
  | 0x41 => ⟨0x41, some .i32Const, some .c32⟩
  | 0x42 => ⟨0x42, some .i64Const, some .c64⟩
  | 0x43 => ⟨0x43, some .f32Const, some .c32⟩
  | 0x44 => ⟨0x44, some .f64Const, some .c64⟩
  | 0x45 => ⟨0x45, some .i32Eqz, some .none_⟩
  | 0x46 => ⟨0x46, some .i32Eq, some .none_⟩
  | 0x47 => ⟨0x47, some .i32Ne, some .none_⟩
  | 0x4a => ⟨0x4a, some .gtS, some .none_⟩
  -- the rest of the numeric instructions
  | n => if 0x45 ≤ n ∧ n < 0xc0 then ⟨opcode, none, some .none_⟩ else ⟨0, none, none⟩

/-- `fw_get_instr`. It compares the opcode with `FW_INSTR_MAX` and nothing else, so a row of zeros
is returned like any other. -/
def fwGetInstr (opcode : UInt8) : Option FwInstr :=
  if opcode ≥ fwInstrMax then none else some (commonInstrHandler opcode)

/-- Every byte is one of the 256, so what is decided row by row holds of all of them. -/
theorem forall_byte {p : UInt8 → Prop} (h : ∀ n < 256, p (UInt8.ofNat n)) (b : UInt8) : p b := by
  have := h b.toNat b.toNat_lt
  rwa [UInt8.ofNat_toNat] at this

/-- The validator's handler for the same opcode, given the one that runs it. Handlers that read the
same immediates share one. -/
def RunFn.decoder : RunFn → ConsumeFn
  | .block | .loop => .block
  | .if_ => .if_
  | .else_ => .else_
  | .end_ => .end_
  | .return_ | .drop | .select | .i32Eqz | .i32Eq | .i32Ne | .gtS => .none_
  | .call | .localGet | .localSet | .localTee | .i32Const | .f32Const => .c32
  | .i64Const | .f64Const => .c64

/-- The two columns of the table go together: an opcode that has a `run` handler has the `consume`
handler that goes over the same immediates. -/
theorem row_decoder {op : UInt8} {fn : RunFn} (h : (commonInstrHandler op).run = some fn) :
    (commonInstrHandler op).consume = some fn.decoder := by
  have hall : ∀ op : UInt8, (commonInstrHandler op).run.all (fun fn =>
      (commonInstrHandler op).consume = some fn.decoder) = true :=
    forall_byte (by decide +kernel)
  have hop := hall op
  rw [h] at hop
  simpa using hop

example :
    (List.range 256).countP (fun n => (commonInstrHandler (.ofNat n)).consume.isSome) = 147 := by
  decide +kernel

end FastWasm
