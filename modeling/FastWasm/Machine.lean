import FastWasm.Instr
import FastWasm.Logged
import Mathlib.Logic.Function.Basic

/-!
# The machine (`exec/fw_exec.h`, the macros of `instr/fw_instr.h`)

The context of a run with its operand stack, the heap of locals blocks, and the stack macros. Every
operation logs what it touches, so that facts about all the states of a run can be stated about its
log. `ctx->current` is written but never read and is left out.

The operand stack is an array of slots and a depth, as in the source, and not a list: slots above
the depth keep what was in them, and a slot can be read or copied at any index. A macro on a full or
empty stack calls `exit(-1)`, which is the halt `exit` with the event `limit` before it.

What C leaves open is a parameter of the environment: what host functions return, what a variable
without a value holds, what is in uninitialised memory. A theorem for every environment holds
whatever these are. Locals blocks are numbered in the order of their allocation, and a freed block
is gone, so that a dangling pointer is seen when it is followed.
-/

namespace FastWasm

open Logged

/-! ## State

The machine is the context and the heap of the locals blocks, with a counter for what is not
determined by either. -/

/-- `fw_module_stack_t`. No operation tags a slot `FW_INSTR_IF` with a block: the push that did is
compiled out. The last field keeps this, and with it the branch of `else` that would follow such a
block is known to be never taken with one. -/
structure Slot where
  /-- a value type, or the opcode of a label -/
  type : UInt8
  /-- the value -/
  val : UInt64
  /-- where a label ends -/
  fin : Option ℕ
  /-- the block of a label -/
  priv : Option FwModuleFuncBlock
  /-- there are no `if` labels -/
  noIf : type = fwInstrIf → priv = none

/-- A slot pushed with `NULL` for its last two fields. All values are pushed like this, by
constants, locals, comparisons and host calls; only labels have an end and a block. -/
def Slot.plain (type : UInt8) (val : UInt64) : Slot := ⟨type, val, none, none, fun _ => rfl⟩

/-- `fw_module_frame`, of which there is one in the context and not one for each call. Entering a
function overwrites it and leaving does not restore it. The depth is a `uint8_t`, while a stack has
up to 4096 operands. -/
structure Frame where
  /-- the end of the body that a `return` leaves -/
  fin : ℕ
  /-- the operand depth that a `return` goes back to -/
  stackDeepth : UInt8
  deriving DecidableEq, Repr

/-- `fw_module_context_t`; `locals` is a pointer into the heap of locals blocks. -/
structure Ctx where
  /-- the operand stack -/
  stack : ℕ → Slot
  /-- the operand depth -/
  pos : ℕ
  /-- the capacity of the stack -/
  fin : ℕ
  /-- the locals of the running function -/
  locals : Option ℕ
  /-- the frame of the running function -/
  frame : Frame

/-- `fw_func_locals_t`: one zeroed array for the parameters and the locals of an activation.
`local_cnt` is set and never read, so nothing compares an index with it. -/
structure FwFuncLocals where
  /-- the number of locals, parameters included -/
  localCnt : ℕ
  /-- their values -/
  locals : List UInt64
  deriving DecidableEq, Repr

/-- The state of a run: the context, the locals blocks by address (`none` once freed), and the
number of host calls and of indeterminate variables so far, by which the environment tells them
apart. -/
structure Machine where
  /-- the context -/
  ctx : Ctx
  /-- the locals blocks -/
  heap : List (Option FwFuncLocals)
  /-- a counter for `Env` -/
  tick : ℕ

/-- What a run depends on and does not change. What C leaves open is a parameter: what the
`n`-th call to a host function returns, what uninitialised memory and variables hold. -/
structure Env where
  /-- the address space -/
  mem : Mem
  /-- `module->instance->funcs` -/
  funcs : List FwModuleFunc
  /-- the value returned by the `n`-th host call -/
  host : ℕ → ℕ → List UInt64 → UInt64
  /-- what `fw_malloc` leaves in `rets` -/
  rets : ℕ → ℕ → UInt64
  /-- what the variable `locals` holds when it was not assigned -/
  uninit : ℕ → Option ℕ

/-- What a run logs: the slots it touches with the context before and after, opcodes fetched,
functions entered and left, returns, blocks allocated and freed, host calls, and the ways through
`err`. -/
inductive Event where
  /-- a slot of the operand stack is read or written: the contexts before and after it -/
  | slot (i : ℕ) (before after : Ctx)
  /-- a push on a full or a pop from an empty stack -/
  | limit
  /-- an opcode is fetched -/
  | fetch (pos : ℕ) (ctx : Ctx)
  /-- the body of a wasm function is entered at an operand depth -/
  | enter (func : FwModuleFunc) (depth : ℕ)
  /-- a wasm function returns to its caller -/
  | leave
  /-- a `return` of a function: the contexts before and after it, the cursor it sets -/
  | ret (func : FwModuleFunc) (before after : Ctx) (pos : ℕ)
  /-- a locals block is allocated -/
  | alloc (id : ℕ)
  /-- a locals block is freed -/
  | free (id : ℕ)
  /-- a function without parameters and locals uses its unassigned variable `locals` -/
  | uninit (p : Option ℕ)
  /-- the function at a host address is called -/
  | host (addr : ℕ) (args : List UInt64)
  /-- the label `err` is reached, with `save_locals` and `ctx->locals` -/
  | errLabel (saved locals : Option ℕ)
  /-- an instruction takes an error path -/
  | err

/-- A step of the executor: a computation over machines that logs events and may halt. A status is
part of the value, since a handler that returns `FW_ERR` has gone on until then, while a halt ends
the whole run. -/
abbrev Run (α : Type) : Type := Logged Event Halt Machine α

/-! ## The operand stack

The slots are a function of their index and a depth. A slot that is taken off is still there, and is
overwritten by the next push. -/

namespace Ctx

/-- Write a slot on top and count it, with no look at the limit. That is done by `fwPush` before. -/
def push (ctx : Ctx) (st : Slot) : Ctx :=
  { ctx with stack := Function.update ctx.stack ctx.pos st, pos := ctx.pos + 1 }

/-- Drop the top slot, which stays where it is. So a pointer to it stays valid until the next push,
and that is what the handlers rely on. -/
def pop (ctx : Ctx) : Ctx := { ctx with pos := ctx.pos - 1 }

/-- Copy one slot over another, wherever the two are. Neither has to be below the depth. -/
def copy (ctx : Ctx) (dst src : ℕ) : Ctx :=
  { ctx with stack := Function.update ctx.stack dst (ctx.stack src) }

end Ctx

/-- `FW_PUSH`: the limit is tested first, and a full stack ends the program by `exit(-1)`. The event
has the context before and after, so that the slot and the depth can be read off the log. -/
def fwPush (st : Slot) : Run PUnit := do
  let s ← get
  if s.ctx.pos ≥ s.ctx.fin then do
    emit .limit
    halt .exit
  else do
    emit (.slot s.ctx.pos s.ctx (s.ctx.push st))
    set { s with ctx := s.ctx.push st }

/-- `FW_POP`; with `peek` the slot stays on the stack. An empty stack ends the program, as a full
one does for a push. Labels are popped like values. -/
def fwPop (peek : Bool) : Run Slot := do
  let s ← get
  if s.ctx.pos = 0 then do
    emit .limit
    halt .exit
  else do
    let ctx := if peek then s.ctx else s.ctx.pop
    emit (.slot (s.ctx.pos - 1) s.ctx ctx)
    set { s with ctx := ctx }
    pure (s.ctx.stack (s.ctx.pos - 1))

/-- `FW_STACK_GET`, of the slot `idx` below the top one, where it is 0 for the top. It takes nothing
off. Below the bottom the program ends. -/
def fwStackGet (idx : ℕ) : Run Slot := do
  let s ← get
  if s.ctx.pos ≤ idx then do
    emit .limit
    halt .exit
  else do
    emit (.slot (s.ctx.pos - (idx + 1)) s.ctx s.ctx)
    pure (s.ctx.stack (s.ctx.pos - (idx + 1)))

/-- `FW_STACK_COPY`, of one slot to another, both counted from the bottom. This macro tests nothing,
so a slot outside the array could be written; that none is, is part of what is proved about runs. -/
def fwStackCopy (dst src : ℕ) : Run PUnit := do
  let s ← get
  emit (.slot src s.ctx s.ctx)
  emit (.slot dst s.ctx (s.ctx.copy dst src))
  set { s with ctx := s.ctx.copy dst src }

section Outcomes

variable (s : Machine)

theorem fwPush_apply (st : Slot) :
    fwPush st s = if s.ctx.pos ≥ s.ctx.fin then ⟨[.limit], .error .exit⟩
      else ⟨[.slot s.ctx.pos s.ctx (s.ctx.push st)],
        .ok (⟨⟩, { s with ctx := s.ctx.push st })⟩ := by
  rw [fwPush, get_bind_apply]
  split <;> rfl

/-- A push with room for it is one event, and writes one slot. -/
theorem fwPush_of_lt {s : Machine} (h : s.ctx.pos < s.ctx.fin) (st : Slot) :
    fwPush st s = ⟨[.slot s.ctx.pos s.ctx (s.ctx.push st)],
      .ok (⟨⟩, { s with ctx := s.ctx.push st })⟩ := by
  rw [fwPush_apply, if_neg (Nat.not_le.mpr h)]

/-- A push on a full stack ends the program. -/
theorem fwPush_of_ge {s : Machine} (h : s.ctx.pos ≥ s.ctx.fin) (st : Slot) :
    fwPush st s = ⟨[.limit], .error .exit⟩ := by
  rw [fwPush_apply, if_pos h]

theorem fwPop_apply (peek : Bool) :
    fwPop peek s = if s.ctx.pos = 0 then ⟨[.limit], .error .exit⟩
      else
        let ctx := if peek then s.ctx else s.ctx.pop
        ⟨[.slot (s.ctx.pos - 1) s.ctx ctx],
          .ok (s.ctx.stack (s.ctx.pos - 1), { s with ctx := ctx })⟩ := by
  rw [fwPop, get_bind_apply]
  split <;> rfl

/-- A pop with something to take returns the top slot. -/
theorem fwPop_of_ne {s : Machine} (h : s.ctx.pos ≠ 0) :
    fwPop false s = ⟨[.slot (s.ctx.pos - 1) s.ctx s.ctx.pop],
      .ok (s.ctx.stack (s.ctx.pos - 1), { s with ctx := s.ctx.pop })⟩ := by
  rw [fwPop_apply, if_neg h]
  rfl

/-- A pop from an empty stack ends the program. -/
theorem fwPop_of_eq {s : Machine} (h : s.ctx.pos = 0) (peek : Bool) :
    fwPop peek s = ⟨[.limit], .error .exit⟩ := by
  rw [fwPop_apply, if_pos h]

theorem fwStackGet_apply (idx : ℕ) :
    fwStackGet idx s = if s.ctx.pos ≤ idx then ⟨[.limit], .error .exit⟩
      else ⟨[.slot (s.ctx.pos - (idx + 1)) s.ctx s.ctx],
        .ok (s.ctx.stack (s.ctx.pos - (idx + 1)), s)⟩ := by
  rw [fwStackGet, get_bind_apply]
  split <;> rfl

theorem fwStackCopy_apply (dst src : ℕ) :
    fwStackCopy dst src s = ⟨[.slot src s.ctx s.ctx, .slot dst s.ctx (s.ctx.copy dst src)],
      .ok (⟨⟩, { s with ctx := s.ctx.copy dst src })⟩ := rfl

end Outcomes

/-! ## Locals blocks

A block is live or freed, and a pointer is `NULL` or the number of a block. What is read or written
through a pointer that is not to a live block is a fault, and so is an index that is out of range.
-/

/-- The live block a pointer points to, if there is one. -/
def Machine.block (s : Machine) (p : Option ℕ) : Option FwFuncLocals :=
  p.bind fun id => s.heap[id]?.join

/-- Read `ctx->locals->locals[idx]`. The source follows the pointer and takes any index. A pointer
to no live block is a fault here, and so is an index from the number of locals on, which is memory
behind the block. -/
def fwLocalsRead (idx : ℕ) : Run UInt64 := do
  let s ← get
  match s.block s.ctx.locals with
  | none => halt (.fault .badPtr)
  | some b =>
    match b.locals[idx]? with
    | none => halt (.fault .localIdx)
    | some v => pure v

/-- Write `p->locals[idx]`, with the same two faults as a read. The pointer is given, since the
arguments are copied before `ctx->locals` is set. -/
def fwLocalsWrite (p : Option ℕ) (idx : ℕ) (val : UInt64) : Run PUnit := do
  let s ← get
  match p, s.block p with
  | some id, some b =>
    if idx < b.locals.length then
      set { s with heap := s.heap.set id (some { b with locals := b.locals.set idx val }) }
    else halt (.fault .localIdx)
  | _, _ => halt (.fault .badPtr)

/-- `fw_calloc` of a block of `n` locals, and its `local_cnt`. The block gets the next number and is
all zeros. It is never `NULL`. -/
def fwLocalsCalloc (n : ℕ) : Run ℕ := do
  let s ← get
  emit (.alloc s.heap.length)
  set { s with heap := s.heap ++ [some ⟨n, List.replicate n 0⟩] }
  pure s.heap.length

/-- `fw_free` of a locals block. A block that is not live cannot be freed, so a double free is a
fault. -/
def fwLocalsFree (id : ℕ) : Run PUnit := do
  let s ← get
  match s.block (some id) with
  | none => halt (.fault .badPtr)
  | some _ => do
    emit (.free id)
    set { s with heap := s.heap.set id none }

/-- `if (p) fw_free(p);`, as it stands behind the loop and behind the label `err`. -/
def fwLocalsFreeIf (p : Option ℕ) : Run PUnit :=
  match p with
  | none => pure ⟨⟩
  | some id => fwLocalsFree id

/-- Count a host call or an indeterminate variable, so that each gets an answer of its own. -/
def nextTick : Run ℕ := do
  let s ← get
  set { s with tick := s.tick + 1 }
  pure s.tick

section Outcomes

variable (s : Machine)

/-- A read changes nothing: it is a fault, or a value. -/
theorem fwLocalsRead_apply (idx : ℕ) :
    ∃ res, fwLocalsRead idx s = ⟨[], res⟩ ∧
      ((∃ f, res = .error (.fault f)) ∨ ∃ v, res = .ok (v, s)) := by
  rw [fwLocalsRead]
  rw [get_bind_apply]
  cases s.block s.ctx.locals with
  | none => exact ⟨_, rfl, .inl ⟨_, rfl⟩⟩
  | some b =>
    cases hv : b.locals[idx]? with
    | none => exact ⟨_, by simp only [hv]; rfl, .inl ⟨_, rfl⟩⟩
    | some v => exact ⟨_, by simp only [hv]; rfl, .inr ⟨v, rfl⟩⟩

/-- A write changes the block that the pointer points to, in one place, or halts. It logs nothing.
-/
theorem fwLocalsWrite_apply (p : Option ℕ) (idx : ℕ) (val : UInt64) :
    ∃ res, fwLocalsWrite p idx val s = ⟨[], res⟩ ∧
      ((∃ f, res = .error (.fault f)) ∨ ∃ id b, p = some id ∧ s.block p = some b ∧
        res = .ok (⟨⟩, { s with
          heap := s.heap.set id (some { b with locals := b.locals.set idx val }) })) := by
  rw [fwLocalsWrite]
  rw [get_bind_apply]
  cases p with
  | none => exact ⟨_, rfl, .inl ⟨_, rfl⟩⟩
  | some id =>
    cases hb : s.block (some id) with
    | none => exact ⟨_, rfl, .inl ⟨_, rfl⟩⟩
    | some b =>
      by_cases hlt : idx < b.locals.length
      · refine ⟨_, by simp only [if_pos hlt]; rfl, .inr ⟨id, b, rfl, rfl, rfl⟩⟩
      · exact ⟨_, by simp only [if_neg hlt]; rfl, .inl ⟨_, rfl⟩⟩

theorem fwLocalsCalloc_apply (n : ℕ) :
    fwLocalsCalloc n s = ⟨[.alloc s.heap.length],
      .ok (s.heap.length, { s with heap := s.heap ++ [some ⟨n, List.replicate n 0⟩] })⟩ := rfl

theorem fwLocalsFree_apply (id : ℕ) :
    fwLocalsFree id s = match s.block (some id) with
      | none => ⟨[], .error (.fault .badPtr)⟩
      | some _ => ⟨[.free id], .ok (⟨⟩, { s with heap := s.heap.set id none })⟩ := by
  rw [fwLocalsFree]
  rw [get_bind_apply]
  rcases s.block (some id) with _ | b <;> rfl

theorem nextTick_apply : nextTick s = ⟨[], .ok (s.tick, { s with tick := s.tick + 1 })⟩ := rfl

end Outcomes

end FastWasm
