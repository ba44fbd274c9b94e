import FastWasm.Machine

/-!
# The executor (`fw_instr_run_*`, `exec/fw_exec.c`)

The handlers, the two dispatch loops and the functions over them. The recursion of the source goes
through `call` (into another function) and `if` (into a loop over the branch); it is left open in an
`Interp` and tied with a step bound by `interp`. Allocation is taken to succeed.

The handlers are open in what they call back into, so that a fact about one of them is proved with
the callbacks as hypotheses, and a fact about all runs by induction on the step bound
(`interp_induction`). The bound counts nested and consecutive rounds, and a run that reaches it
halts with the reason `fuel`. A theorem that says that a run returns has to give a bound, and one
about every run has none.

Where the source is careless the model is too. The dispatch loops drop the status of a handler and
only look at its cursor. `block` and `loop` fall through to the label `str_err` behind their push. A
slot pushed by `local.get` is tagged `FW_I32` whatever the type of the local. The label `err` of
`_fw_module_run_func` frees `save_locals`, and `ctx->frame` is set when a function is entered and
never restored.
-/

namespace FastWasm

open Logged

/-! ## Open recursion

Two callbacks, and all that goes through them is left to the induction on the step bound. -/

/-- How a dispatch loop ends: with its cursor at the end of its window or behind it, at an opcode
without a row, or at the label `str_err`. -/
inductive LoopExit where
  /-- the cursor reached `last` -/
  | done (body : FwStr)
  /-- `fw_get_instr` returned `NULL` -/
  | badOpcode
  /-- `fw_str_get8` jumped to `str_err` -/
  | strErr
  deriving DecidableEq, Repr

/-- What the handlers call back into: a function is run from its start, and a loop goes over a
window of bytes. The two are all the recursion there is in the executor. -/
structure Interp where
  /-- `_fw_module_run_func` -/
  func : FwModuleFunc → Run Status
  /-- the dispatch loop over a body or a branch -/
  loop : FwModuleFunc → FwStr → Run LoopExit

section Handlers

variable (env : Env) (r : Interp)

/-! ## Host functions

A host function is called with values and gives values. What it gives depends on how many calls
there were before, so two calls with the same arguments may differ. -/

/-- The loop of `fw_module_run_host_func` that pops the arguments, last one first. Each is compared
with its parameter type by the tag, and the first that differs ends the call with `FW_ERR`, with it
and the operands above it popped. The arrays are private to the call, so they are not modelled. -/
def fwPopArgs (ft : FwModuleType) : ℕ → List UInt64 → Run (Option (List UInt64))
  | 0, args => pure (some args)
  | paramCnt + 1, args => do
    let st ← fwPop false
    match ft.val[paramCnt]? with
    | none => halt (.fault .badPtr)
    | some type =>
      if st.type ≠ type then do
        emit .err
        pure none
      else fwPopArgs ft paramCnt (st.val :: args)

/-- The `switch` of `_fw_module_run_host_func`: what the host function is called with, `none` for
`default`. -/
def fwHostArgs (argv : List UInt64) : Option (List UInt64) :=
  let a (i : ℕ) := argv.getD i 0
  match argv.length with
  | 0 => some []
  | 1 => some [a 0]
  | 2 => some [a 0, a 1]
  | 3 => some [a 0, a 1, a 2]
  | 4 => some [a 0, a 1, a 2, a 3]
  | 5 => some [a 0, a 1, a 2, a 3, a 4]
  | 6 => some [a 0, a 1, a 2, a 3, a 4, a 5]
  | 7 => some [a 0, a 1, a 2, a 3, a 4, a 5, a 6]
  | 8 => some [a 0, a 1, a 2, a 3, a 4, a 5, a 6, a 7]
  | 9 => some [a 0, a 1, a 2, a 3, a 4, a 5, a 6, a 7, a 8]
  | 10 => some [a 0, a 1, a 2, a 3, a 4, a 5, a 6, a 7, a 8, a 9]
  | 11 => some [a 0, a 1, a 2, a 3, a 4, a 5, a 6, a 7, a 8, a 9, a 10]
  | 12 => some [a 0, a 1, a 2, a 3, a 4, a 5, a 6, a 7, a 8, a 9, a 10, a 11]
  | 13 => some [a 0, a 1, a 2, a 3, a 4, a 5, a 6, a 7, a 8, a 9, a 10, a 11, a 12]
  | 14 => some [a 0, a 1, a 2, a 3, a 4, a 5, a 6, a 7, a 8, a 9, a 10, a 11, a 12, a 13]
  | 15 => some [a 0, a 1, a 2, a 3, a 4, a 5, a 6, a 7, a 8, a 9, a 10, a 11, a 12, a 13, a 14]
  | 16 => some [a 0, a 1, a 2, a 3, a 4, a 5, a 6, a 7, a 8, a 9, a 10, a 11, a 12, a 13, a 14,
      a 15]
  | 17 => some [a 0, a 1, a 2, a 3, a 4, a 5, a 6, a 7, a 8, a 9, a 10, a 11, a 12, a 13, a 14,
      a 15, a 16]
  | 18 => some [a 0, a 1, a 2, a 3, a 4, a 5, a 6, a 7, a 8, a 9, a 10, a 11, a 12, a 13, a 14,
      a 15, a 16, a 17]
  | 19 => some [a 0, a 1, a 2, a 3, a 4, a 5, a 6, a 7, a 8, a 9, a 10, a 11, a 12, a 13, a 14,
      a 15, a 16, a 17, a 18]
  | 20 => some [a 0, a 1, a 2, a 3, a 4, a 5, a 6, a 7, a 8, a 9, a 10, a 11, a 12, a 13, a 14,
      a 15, a 16, a 17, a 18, a 19]
  | _ => none

/-- `_fw_module_run_host_func`: the array `rets` after the call, `none` when there is no call. The
host function is called as one that returns a value, whatever its type, and the value is kept if a
result is wanted. Further results are what `fw_malloc` has left in the array. -/
def _fwModuleRunHostFunc (n addr retCnt : ℕ) (argv : List UInt64) : Run (Option (ℕ → UInt64)) :=
  match fwHostArgs argv with
  | none => pure none
  | some args => do
    emit (.host addr args)
    let ret := env.host n addr args
    pure (some (if retCnt ≠ 0 then Function.update (env.rets n) 0 ret else env.rets n))

/-- The loop that pushes the results, all with the type of the first. The source reads
`val[param_cnt]` in every round. -/
def fwPushRets (ft : FwModuleType) (rets : ℕ → UInt64) : ℕ → ℕ → Run PUnit
  | 0, _ => pure ⟨⟩
  | n + 1, i =>
    match ft.val[ft.paramCnt.toNat]? with
    | none => halt (.fault .badPtr)
    | some type => do
      fwPush (.plain type (rets i))
      fwPushRets ft rets n (i + 1)

/-- `fw_module_run_host_func`: the arguments are popped and checked against the parameter types, the
host is called, and the results are pushed. -/
def fwModuleRunHostFunc (func : FwModuleFunc) (addr : ℕ) : Run Status := do
  let ft := func.functype
  match ← fwPopArgs ft ft.paramCnt.toNat [] with
  | none => pure .err
  | some args => do
    let n ← nextTick
    match ← _fwModuleRunHostFunc env n addr ft.resCnt.toNat args with
    | none => do
      emit .err
      pure .err
    | some rets => do
      fwPushRets ft rets ft.resCnt.toNat 0
      pure .ok

/-! ## Handlers that read an immediate

The cursor is behind the opcode, and what is read is used as it is. A number that is too long or cut
off leads to the label `str_err`. -/

/-- `fw_str_leb_getu` in a `run` handler, where `str_err` returns `FW_ERR`. -/
def readLeb (maxbit : ℕ) (body : FwStr) (k : UInt64 → FwStr → Run (Status × FwStr)) :
    Run (Status × FwStr) :=
  match fwStrLebGetu env.mem body maxbit with
  | .hang => halt .hang
  | .strErr => do
    emit .err
    pure (.err, body)
  | .got val body => k val body

theorem readLeb_of_got {env : Env} {maxbit : ℕ} {body body' : FwStr} {val : UInt64}
    {k : UInt64 → FwStr → Run (Status × FwStr)}
    (h : fwStrLebGetu env.mem body maxbit = .got val body') :
    readLeb env maxbit body k = k val body' := by
  rw [readLeb, h]

/-- `fw_instr_run_loop`. It has no `return` before the label `str_err`, so it returns `FW_ERR` with
the label pushed, and the loop that called it does not notice. -/
def fwInstrRunLoop (body : FwStr) : Run (Status × FwStr) :=
  let endAddr := body.pos
  readLeb env 32 body fun resType body => do
    fwPush ⟨fwInstrLoop, resType.toUInt32.toUInt64, some endAddr, none, fun _ => rfl⟩
    -- falls through to `str_err`
    pure (.err, body)

/-- `fw_instr_run_block`. It has no `return` before the label `str_err` either. The block is looked
up by the position behind the block type. -/
def fwInstrRunBlock (func : FwModuleFunc) (body : FwStr) : Run (Status × FwStr) :=
  readLeb env 32 body fun resType body =>
    match fwInstrFindBlk func.blks body.pos with
    | none => do
      emit .err
      pure (.err, body)
    | some blk => do
      fwPush ⟨fwInstrBlock, resType.toUInt32.toUInt64, blk.fin, some blk,
        fun h => absurd h (by decide)⟩
      pure (.err, body)

/-- `fw_instr_run_call`: the function at the index is run, host function or not. Nothing compares
the index with the number of functions. -/
def fwInstrRunCall (body : FwStr) : Run (Status × FwStr) :=
  readLeb env 32 body fun idx body =>
    match env.funcs[idx.toUInt32.toNat]? with
    | none => halt (.fault .funcIdx)
    | some ifunc => do
      match ← r.func ifunc with
      | .err => do
        emit .err
        pure (.err, body)
      | .ok => pure (.ok, body)

/-- `fw_instr_run_i32_const`. The number is read as an unsigned one, so the sign of a short encoding
is not extended. -/
def fwInstrRunI32Const (body : FwStr) : Run (Status × FwStr) :=
  readLeb env 32 body fun val body => do
    fwPush (.plain fwI32 val.toUInt32.toUInt64)
    pure (.ok, body)

/-- `fw_instr_run_f32_const`, which reads a LEB128 number where the binary format has four raw
bytes. -/
def fwInstrRunF32Const (body : FwStr) : Run (Status × FwStr) :=
  readLeb env 32 body fun val body => do
    fwPush (.plain fwF32 val.toUInt32.toUInt64)
    pure (.ok, body)

/-- `fw_instr_run_i64_const`, read as an unsigned number too, in 64 bits. Nothing extends the sign
of a short encoding, save by accident: the macro shifts an `int`, whose sign is extended above the
bits that it puts in. -/
def fwInstrRunI64Const (body : FwStr) : Run (Status × FwStr) :=
  readLeb env 64 body fun val body => do
    fwPush (.plain fwI64 val)
    pure (.ok, body)

/-- `fw_instr_run_f64_const`, which reads a LEB128 number where the binary format has eight raw
bytes. -/
def fwInstrRunF64Const (body : FwStr) : Run (Status × FwStr) :=
  readLeb env 64 body fun val body => do
    fwPush (.plain fwF64 val)
    pure (.ok, body)

/-- `fw_instr_run_local_tee`. The operand stays on the stack, and the local is written with an index
that nothing compares with the number of locals. -/
def fwInstrRunLocalTee (body : FwStr) : Run (Status × FwStr) :=
  readLeb env 32 body fun idx body => do
    let cur ← fwPop true
    let s ← get
    fwLocalsWrite s.ctx.locals idx.toUInt32.toNat cur.val
    pure (.ok, body)

/-- The first statement of `FW_PUSH`, before the value to push is looked at. -/
def fwPushRoom : Run PUnit := do
  let s ← get
  if s.ctx.pos ≥ s.ctx.fin then do
    emit .limit
    halt .exit
  else pure ⟨⟩

theorem fwPushRoom_apply (s : Machine) :
    fwPushRoom s = if s.ctx.pos ≥ s.ctx.fin then ⟨[.limit], .error .exit⟩
      else ⟨[], .ok (⟨⟩, s)⟩ := by
  rw [fwPushRoom, get_bind_apply]
  split <;> rfl

/-- `fw_instr_run_local_get`. The slot is tagged `FW_I32` whatever the type of the local. -/
def fwInstrRunLocalGet (body : FwStr) : Run (Status × FwStr) :=
  readLeb env 32 body fun idx body => do
    fwPushRoom
    let val ← fwLocalsRead idx.toUInt32.toNat
    fwPush (.plain fwI32 val)
    pure (.ok, body)

/-- `fw_instr_run_local_set`. The operand is popped before the index is read. -/
def fwInstrRunLocalSet (body : FwStr) : Run (Status × FwStr) := do
  let cur ← fwPop false
  readLeb env 32 body fun idx body => do
    let s ← get
    fwLocalsWrite s.ctx.locals idx.toUInt32.toNat cur.val
    pure (.ok, body)

/-! ## Handlers without an immediate

They pop, compute and push. Tags are compared in one of them only. -/

/-- `fw_instr_run_drop`. What is dropped may be a label, since labels stay on the stack. -/
def fwInstrRunDrop (body : FwStr) : Run (Status × FwStr) := do
  let _ ← fwPop false
  pure (.ok, body)

/-- `fw_instr_run_select`. The operands are not compared by their tags, and the one that is picked
keeps its own. The condition is compared with 0 in all 64 bits. -/
def fwInstrRunSelect (body : FwStr) : Run (Status × FwStr) := do
  let cond ← fwPop false
  let val2 ← fwPop false
  let val1 ← fwPop false
  fwPush (if cond.val ≠ 0 then val1 else val2)
  pure (.ok, body)

/-- The slot a comparison pushes: an `i32` that is 1 or 0. -/
def Slot.ofBool (b : Bool) : Slot := .plain fwI32 (if b then 1 else 0)

/-- `fw_instr_run_i32_ne`, the only comparison that looks at the tags. Both operands are popped
before that, and stay popped when the handler returns `FW_ERR`. -/
def fwInstrRunI32Ne (body : FwStr) : Run (Status × FwStr) := do
  let c2 ← fwPop false
  let c1 ← fwPop false
  if c1.type ≠ fwI32 ∨ c2.type ≠ fwI32 then do
    emit .err
    pure (.err, body)
  else do
    fwPush (.ofBool (c1.val ≠ c2.val))
    pure (.ok, body)

/-- `fw_instr_run_i32_eqz`, on all 64 bits of the slot and whatever its tag. -/
def fwInstrRunI32Eqz (body : FwStr) : Run (Status × FwStr) := do
  let c1 ← fwPop false
  fwPush (.ofBool (c1.val = 0))
  pure (.ok, body)

/-- `fw_instr_run_i32_eq`, on all 64 bits of the slots and whatever their tags. -/
def fwInstrRunI32Eq (body : FwStr) : Run (Status × FwStr) := do
  let c2 ← fwPop false
  let c1 ← fwPop false
  fwPush (.ofBool (c2.val = c1.val))
  pure (.ok, body)

/-- `fw_instr_run_gt_s`, on the `uint64_t` values: the comparison is unsigned. For two integers of
the same sign this is the right one. -/
def fwInstrRunGtS (body : FwStr) : Run (Status × FwStr) := do
  let c2 ← fwPop false
  let c1 ← fwPop false
  fwPush (.ofBool (c1.val > c2.val))
  pure (.ok, body)

/-- `fw_instr_run_end`, which does nothing: the label of a block stays where it is. The `end` of a
function is run too, as its last instruction. -/
def fwInstrRunEnd (body : FwStr) : Run (Status × FwStr) := pure (.ok, body)

/-- `fw_instr_run_else`. The loops come to an `else` only when it is not the one that they skip;
then a label of an `if` is expected on the stack, which nothing pushes. -/
def fwInstrRunElse (body : FwStr) : Run (Status × FwStr) := do
  let st ← fwPop false
  if st.type ≠ fwInstrIf then do
    emit .err
    pure (.err, body)
  else
    match st.priv.bind (·.fin) with
    | none => halt (.fault .badPtr)
    | some fin => pure (.ok, { body with pos := fin })

/-- The loop of `fw_instr_run_return` that moves the results, `n` of them: the final `oldpos`. -/
def fwMoveRets : ℕ → ℕ → ℕ → Run ℕ
  | 0, oldpos, _ => pure oldpos
  | n + 1, oldpos, i => do
    fwStackCopy oldpos i
    fwMoveRets n (oldpos + 1) (i + 1)

/-- The results moved down to `oldpos`, unless they are there already. They are copied one after the
other, the lowest one first, as it has to be for moving down. The depth is set behind the last of
them, which drops all that was in between. -/
def fwMoveRetsTo (oldpos i : ℕ) : Run PUnit :=
  if i ≠ oldpos then do
    let s ← get
    -- `ctx->pos` bounds the loop and stays as it is until the end of it
    let newpos ← fwMoveRets (s.ctx.pos - i) oldpos i
    let s ← get
    set { s with ctx := { s.ctx with pos := newpos } }
  else pure ⟨⟩

/-- `fw_instr_run_return`. The index `i` is an `int32_t` set from the `uint32_t` difference and
compared with the `uint32_t` `ctx->pos`, so the loop sees its bits as unsigned: with fewer than
`res_cnt` slots on the stack it does not run. -/
def fwInstrRunReturn (func : FwModuleFunc) (body : FwStr) : Run (Status × FwStr) := do
  let s ← get
  let oldpos := s.ctx.frame.stackDeepth.toNat
  let i := (s.ctx.pos + 2 ^ 32 - func.functype.resCnt.toNat) % 2 ^ 32
  fwMoveRetsTo oldpos i
  let s' ← get
  emit (.ret func s.ctx s'.ctx s.ctx.frame.fin)
  pure (.ok, { body with pos := s.ctx.frame.fin })

/-- What a `return` does depends on the machine; only the cursor it returns depends on the bytes. -/
theorem fwInstrRunReturn_apply (func : FwModuleFunc) (s : Machine) :
    ∃ i, ∀ body, fwInstrRunReturn func body s =
      (do
        fwMoveRetsTo s.ctx.frame.stackDeepth.toNat i
        let s' ← get
        emit (.ret func s.ctx s'.ctx s.ctx.frame.fin)
        pure (.ok, { body with pos := s.ctx.frame.fin }) : Run (Status × FwStr)) s :=
  ⟨_, fun _ => get_bind_apply _ s⟩

/-! ## `if`

The branch is a window of its own, and it is run before anything behind it. So nested `if`s are
nested loops. -/

/-- `fw_instr_run_if`. The branch is run by a loop over its own window, up to the `else` or the
`end`. A cursor behind the branch is taken for a `return` in it. -/
def fwInstrRunIf (func : FwModuleFunc) (body : FwStr) : Run (Status × FwStr) :=
  readLeb env 32 body fun _ body =>
    match fwInstrFindBlk func.blks body.pos with
    | none => do
      emit .err
      pure (.err, body)
    | some blk => do
      let cond ← fwPop false
      if cond.type ≠ fwI32 then do
        emit .err
        pure (.err, body)
      else if blk.start ≠ some body.pos then do
        emit .err
        pure (.err, body)
      else
        match blk.els, blk.fin with
        | some els, some fin => do
          let blockbody : FwStr := if cond.val ≠ 0 then ⟨body.pos, els - 1⟩ else ⟨els, fin⟩
          match ← r.loop func blockbody with
          | .done blockbody =>
            -- a `return` in the branch, so it goes on with the cursor of that
            if blockbody.pos > blockbody.last then
              pure (.ok, { body with pos := blockbody.pos })
            else pure (.ok, { body with pos := fin })
          | .badOpcode => do
            emit .err
            pure (.err, body)
          | .strErr => pure (.err, body)
        | _, _ => halt (.fault .badPtr)

/-! ## Dispatch

Handlers are called through a pointer, which is `NULL` in the rows of most opcodes. -/

/-- A call through the `run` pointer of a row. Of the handlers only three get the function, and two
call back. -/
def RunFn.run (func : FwModuleFunc) (body : FwStr) : RunFn → Run (Status × FwStr)
  | .block => fwInstrRunBlock env func body
  | .loop => fwInstrRunLoop env body
  | .if_ => fwInstrRunIf env r func body
  | .else_ => fwInstrRunElse body
  | .end_ => fwInstrRunEnd body
  | .return_ => fwInstrRunReturn func body
  | .call => fwInstrRunCall env r body
  | .drop => fwInstrRunDrop body
  | .select => fwInstrRunSelect body
  | .localGet => fwInstrRunLocalGet env body
  | .localSet => fwInstrRunLocalSet env body
  | .localTee => fwInstrRunLocalTee env body
  | .i32Const => fwInstrRunI32Const env body
  | .i64Const => fwInstrRunI64Const env body
  | .f32Const => fwInstrRunF32Const env body
  | .f64Const => fwInstrRunF64Const env body
  | .i32Eqz => fwInstrRunI32Eqz body
  | .i32Eq => fwInstrRunI32Eq body
  | .i32Ne => fwInstrRunI32Ne body
  | .gtS => fwInstrRunGtS body

/-- One round of the dispatch loop, the same in `_fw_module_run_func` and `fw_instr_run_if`: the
opcode is fetched, its row is looked up and the handler is called through the pointer. The status of
the handler is dropped. -/
def dispatchLoop (func : FwModuleFunc) (body : FwStr) : Run LoopExit :=
  if body.pos < body.last then
    match fwStrGet8 env.mem body with
    | none => pure .strErr
    | some (opcode, next) => do
      let s ← get
      emit (.fetch body.pos s.ctx)
      match fwGetInstr opcode with
      | none => pure .badOpcode
      | some instr =>
        match instr.run with
        | none => halt (.fault .nullHandler)
        | some fn => do
          let (_, next) ← fn.run env r func next
          r.loop func next
  else pure (.done body)

/-! ## Functions

A body is run between an entry and an exit, and the two keep the locals of the caller in a variable.
-/

/-- The loop that copies the arguments into the locals; `paramCnt` of them, `n` still to do. The
operand at depth `i` from the top goes to the local `paramCnt - i - 1`, so that the arguments are in
their order. They stay on the stack. -/
def fwCopyParams (locals : Option ℕ) (paramCnt : ℕ) : ℕ → Run PUnit
  | 0 => pure ⟨⟩
  | i + 1 => do
    let param ← fwStackGet i
    fwLocalsWrite locals (paramCnt - i - 1) param.val
    fwCopyParams locals paramCnt i

/-- The size of a function's locals block: a `uint32_t` sum, of the declared locals and the
parameters. When it comes to 0 no block is allocated. -/
def FwModuleFunc.localsCnt (func : FwModuleFunc) : ℕ :=
  (func.localCnt.toNat + func.functype.paramCnt.toNat) % 2 ^ 32

/-- The locals block of an activation, all zeros, into which the arguments are copied next. With
nothing to hold it is not allocated and the variable stays as it was, that is without a value. What
the variable then holds is a parameter of the environment, and the event `uninit` says that it was
used. -/
def fwInitLocals (func : FwModuleFunc) : Run (Option ℕ) := do
  if func.localsCnt ≠ 0 then do
    let id ← fwLocalsCalloc func.localsCnt
    pure (some id)
  else do
    let n ← nextTick
    emit (.uninit (env.uninit n))
    pure (env.uninit n)

/-- What `_fw_module_run_func` does before its loop; it returns `save_locals`. The frame of the
function replaces that of the caller, with the depth of the operand stack in eight bits. -/
def fwEnterFunc (func : FwModuleFunc) : Run (Option ℕ) := do
  let locals ← fwInitLocals env func
  fwCopyParams locals func.functype.paramCnt.toNat func.functype.paramCnt.toNat
  let s ← get
  emit (.enter func s.ctx.pos)
  set { s with ctx := { s.ctx with
    locals := locals
    frame := ⟨func.body.last, UInt8.ofNat s.ctx.pos⟩ } }
  pure s.ctx.locals

/-- The label `err` of `_fw_module_run_func`. It frees the block of the caller, and falls through to
`str_err`, which returns `FW_OK`. -/
def fwErrLabel (saveLocals : Option ℕ) : Run Status := do
  let s ← get
  emit (.errLabel saveLocals s.ctx.locals)
  fwLocalsFreeIf saveLocals
  emit .leave
  pure .ok

/-- What `_fw_module_run_func` does after its loop: it frees the block of locals and puts that of
the caller back. A cursor behind the end goes to the label `err`, and so does an opcode without a
row, before anything is put back. -/
def fwLeaveFunc (saveLocals : Option ℕ) : LoopExit → Run Status
  | .done body => do
    let s ← get
    fwLocalsFreeIf s.ctx.locals
    let s ← get
    set { s with ctx := { s.ctx with locals := saveLocals } }
    -- `goto err` with the locals of the caller already put back
    if body.pos ≠ body.last then fwErrLabel saveLocals
    else do
      emit .leave
      pure .ok
  | .badOpcode => do
    emit .err
    fwErrLabel saveLocals
  | .strErr => do
    emit .leave
    pure .ok

/-- `_fw_module_run_func`: a host function is called, and any other is entered, run by a loop over
its body, and left. -/
def _fwModuleRunFunc (func : FwModuleFunc) : Run Status :=
  match func.hostAddr with
  | some addr => fwModuleRunHostFunc env func addr
  | none => do
    let saveLocals ← fwEnterFunc env func
    let exit ← r.loop func func.body
    fwLeaveFunc saveLocals exit

end Handlers

/-! ## Tying the recursion

One step bound for calls and for rounds of a loop. -/

/-- The interpreter with at most `n` nested and consecutive steps: every callback costs one. The
source has no such bound. It is there so that the recursion has an end, and what is proved of a run
holds for every bound. -/
def interp (env : Env) : ℕ → Interp
  | 0 => ⟨fun _ => halt .fuel, fun _ _ => halt .fuel⟩
  | n + 1 => ⟨_fwModuleRunFunc env (interp env n), dispatchLoop env (interp env n)⟩

/-- What holds of an interpreter that stops at once and is preserved by a step holds of all. It is
the induction on the step bound, stated for a predicate on both callbacks. -/
theorem interp_induction {env : Env} {p : Interp → Prop}
    (zero : p ⟨fun _ => halt .fuel, fun _ _ => halt .fuel⟩)
    (step : ∀ r, p r → p ⟨_fwModuleRunFunc env r, dispatchLoop env r⟩) (n : ℕ) :
    p (interp env n) := by
  induction n with
  | zero => exact zero
  | succ n ih => exact step _ ih

/-! ## The entry points

What is called from outside: a function with arguments that are C strings. -/

/-- `fw_module_context_new`; the stack holds whatever `fw_malloc` left there, and all else is 0.
There are no blocks of locals yet, and `ctx->locals` is `NULL`. -/
def fwModuleContextNew (stack : ℕ → Slot) : Machine where
  ctx := ⟨stack, 0, fwMaxStackSize, none, ⟨0, 0⟩⟩
  heap := []
  tick := 0

/-- `isspace` in the C locale: the blank and the five control characters. `atoi` passes over them at
the front of a string. -/
def isSpace (c : UInt8) : Bool := c = 0x20 || (0x09 ≤ c && c ≤ 0x0d)

/-- The digits of `strtol`, up to the first character that is none. Without a digit the number is 0,
so every string is a number for `atoi`. -/
def strtolDigits : List UInt8 → ℕ → ℕ
  | [], acc => acc
  | c :: cs, acc =>
    if 0x30 ≤ c && c ≤ 0x39 then strtolDigits cs (10 * acc + (c.toNat - 0x30)) else acc

/-- `atoi` of a string: `strtol` in base 10, saturated to a `long`, its low 32 bits an `int`. The
bytes are those before the terminating zero. -/
def atoi (s : List UInt8) : Int32 :=
  let v : ℤ := match s.dropWhile isSpace with
    | 0x2d :: cs => max (-2 ^ 63) (-(strtolDigits cs 0 : ℤ))
    | 0x2b :: cs => min (2 ^ 63 - 1) (strtolDigits cs 0)
    | cs => min (2 ^ 63 - 1) (strtolDigits cs 0)
  Int32.ofInt v

/-- The loop of `fw_module_run_func` that pushes the arguments. The `int` of `atoi` is converted to
the `uint64_t` of the slot, so a negative one has all its high bits set. -/
def fwPushArgs : List (List UInt8) → Run PUnit
  | [] => pure ⟨⟩
  | arg :: args => do
    fwPush (.plain fwI32 (atoi arg).toInt64.toUInt64)
    fwPushArgs args

/-- `fw_module_run_func` on its new context: the arguments are read by `atoi` and pushed, the
function is run, and a result is popped when one is asked for. The value is the status, and
`rets->val` where it was set. With `rets` false the caller passed `NULL`. -/
def fwModuleRunFunc (env : Env) (n : ℕ) (func : FwModuleFunc) (args : List (List UInt8))
    (rets : Bool) : Run (Status × Option UInt32) := do
  if func.functype.paramCnt.toNat > args.length then pure (.err, none)
  else do
    -- arguments beyond the parameters are only warned about
    fwPushArgs (args.take func.functype.paramCnt.toNat)
    match ← (interp env n).func func with
    | .err => pure (.err, none)
    | .ok =>
      if rets ∧ func.functype.resCnt ≠ 0 then do
        let wrets ← fwPop false
        pure (.ok, some wrets.val.toUInt32)
      else pure (.ok, none)

end FastWasm
