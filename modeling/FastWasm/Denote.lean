import FastWasm.Observe
import FastWasm.Simulate
import FastWasm.Terminate

/-!
# The meaning of programs

Structured code of every kind gets a meaning by recursion on the tree: `block` and `loop` as well as
`if`, and calls of wasm and host functions, with everything that a handler does on its error paths.
A meaning is a computation like the executor's, with its log and its halts. It halts for two reasons
more: a `return` after a call may leave for the end of another function, and calls are given a
meaning up to some depth only.

The meaning is that of this interpreter, not of the specification. A `block` leaves its label on the
stack, an `if` with a condition of the wrong type goes on into its branches, a `loop` is run once,
and a host function that gives up ends nothing. But it has no cursor and no loop over bytes: a
construct is run by running its parts, and a `return` in a branch returns from the tree. So it says
what the bytes are for, and the comparison with the dispatch loops is what says that they are used
in that way.

A `block` pushes the position of its end and a `loop` the one behind its opcode, so the meaning of a
tree depends on where it lies.
-/

namespace FastWasm

open Logged

/-! ## Meanings

A meaning is a computation like those of the executor, so the handlers can be used as they are, and
invariants are stated and proved with the same rules. -/

/-- How a meaning stops: as the executor does, in a function that is not its own, or for want of
depth. -/
inductive Stop where
  /-- the executor halts -/
  | halt (h : Halt)
  /-- a `return` leaves for the end of another function -/
  | stray
  /-- the calls are nested too deep -/
  | depth
  deriving DecidableEq, Repr

/-- A computation of the executor's machine, with its events and the ways that a meaning stops. -/
abbrev Meaning (α : Type) : Type := Logged Event Stop Machine α

/-- What the executor does, as a meaning, with the same log and the same halts. -/
def Run.meaning {α : Type} (m : Run α) : Meaning α := lift Stop.halt m

/-- Code after code, which is not reached when that returned from the function. The value says
whether it did. -/
def andThen (m rest : Meaning Bool) : Meaning Bool := do
  if ← m then pure true else rest

/-! ## Programs

A program is a list of functions that carry their trees, and the proof that the one encodes the
other. -/

/-- The construct of a tree is found by its start, with all that the tree says about it: where its
`else` and its `end` are, and the opcode that opens it. -/
def Tabled (blks : FuncBlks) (cs : List Construct) : Prop :=
  ∀ c ∈ cs, fwInstrFindBlk blks c.start = some c.block

/-- The body of a function encodes a tree, and its block table is that of the tree. The immediates
of the tree are such that the handlers read them as they are written (`Code.AsRead`), which leaves
out raw bytes of a float that are not one LEB128 number. -/
structure Encodes (mem : Mem) (func : FwModuleFunc) (code : Code) : Prop where
  /-- the tree -/
  asRead : code.AsRead
  /-- its bytes -/
  holds : Holds mem func.body.pos code.body
  /-- and no more -/
  last : func.body.last = func.body.pos + code.body.length
  /-- its constructs -/
  tabled : Tabled func.blks (code.constructs func.body.pos)

/-- A function and the tree that it encodes, unless it is a host function. -/
structure Coded (mem : Mem) where
  /-- the function -/
  func : FwModuleFunc
  /-- the tree -/
  code : Code
  /-- the one encodes the other -/
  encodes : func.hostAddr = none → Encodes mem func code

/-! ## The meaning of a tree

One clause for each constructor. A straight-line instruction does what its handler does once the
immediates are read, and a construct does what its opcode does, then its contents, then what is
behind it. -/

/-- A label of a loop has no block table entry, and it needs none, since its tag is not that of an
`if`. -/
theorem loop_noIf : fwInstrLoop = fwInstrIf → (none : Option FwModuleFuncBlock) = none :=
  fun _ => rfl

/-- A label of a block is not one of an `if`, so its entry in the table is not kept with it. -/
theorem block_noIf (c : Construct) : fwInstrBlock = fwInstrIf → some c.block = none :=
  fun h => absurd h (by decide)

/-- The slot that a `block` or `loop` at `p` pushes: its opcode for a tag and its block type for a
value. With them goes where the block ends, or for a `loop` the place behind the opcode. -/
def labelSlot (loop : Bool) (bt : List UInt8) (p : ℕ) (c : Construct) : Slot :=
  if loop then
    ⟨fwInstrLoop, (lebBits bt 0 0).toUInt32.toUInt64, some (p + 1), none, loop_noIf⟩
  else
    ⟨fwInstrBlock, (lebBits bt 0 0).toUInt32.toUInt64, some c.fin, some c.block, block_noIf c⟩

/-- An `else` that the loop comes to. It takes the top slot for the label of an `if`, which nothing
pushes, and a slot with that tag has no block to go on at. -/
def elseRun : Run PUnit := do
  let st ← fwPop false
  if st.type ≠ fwInstrIf then emit .err
  else halt (.fault .badPtr)

section

variable (env : Env) (call : ℕ → Meaning Status) (func : FwModuleFunc)

/-- The meaning of a straight-line instruction with a handler. -/
def RunFn.denote (imm : List UInt8) : RunFn → Meaning Bool
  | .return_ => do
    let s ← get
    if s.ctx.frame.fin ≠ func.body.last then halt .stray
    else do
      let _ ← Run.meaning (fwInstrRunReturn func func.body)
      pure true
  | .call => do
    match ← call (lebBits imm 0 0).toUInt32.toNat with
    | .err => do
      emit .err
      pure false
    | .ok => pure false
  | fn => do
    let _ ← Run.meaning (fn.leafRun imm)
    pure false

/-- The meaning of the tree that lies at a position: true when it returned from the function. Calls
are given by `call`, and `func` is the function that the tree belongs to, to whose end a `return`
goes. -/
def Code.denote : Code → ℕ → Meaning Bool
  | .nil, _ => pure false
  | .instr op imm rest, p =>
    andThen
      ((commonInstrHandler op).run.elim (halt (.halt (.fault .nullHandler)))
        (RunFn.denote call func imm))
      (rest.denote (p + 1 + imm.length))
  | .block loop bt inner rest, p =>
    let start := p + 1 + bt.length
    let fin := start + inner.encode.length + 1
    andThen
      (do
        Run.meaning (fwPush (labelSlot loop bt p ⟨start, fin, fin, blockCode loop⟩))
        inner.denote start)
      (rest.denote fin)
  | .ifThen bt thn rest, p =>
    let start := p + 1 + bt.length
    andThen
      (do
        let cond ← Run.meaning (fwPop false)
        if cond.type ≠ fwI32 then do
          -- the branch is gone into all the same
          emit .err
          thn.denote start
        else if cond.val ≠ 0 then thn.denote start
        else pure false)
      (rest.denote (start + thn.encode.length + 1))
  | .ifElse bt thn els rest, p =>
    let start := p + 1 + bt.length
    let elsePos := start + thn.encode.length + 1
    andThen
      (do
        let cond ← Run.meaning (fwPop false)
        if cond.type ≠ fwI32 then do
          -- both branches are gone through, and the `else` between them
          emit .err
          andThen (thn.denote start) do
            Run.meaning elseRun
            els.denote elsePos
        else if cond.val ≠ 0 then thn.denote start
        else els.denote elsePos)
      (rest.denote (elsePos + els.encode.length + 1))

end

/-! ## The meaning of a function

A function is entered, its tree is run, and it is left, with the locals and the frame as the
executor has them. A host function is what it is for the executor too. -/

section

variable (env : Env) (prog : List (Coded env.mem))

/-- The meaning of a function, given one for those that it calls. It is entered and left as by the
executor. -/
def Coded.denote (call : ℕ → Meaning Status) (f : Coded env.mem) : Meaning Status :=
  match f.func.hostAddr with
  | some addr => Run.meaning (fwModuleRunHostFunc env f.func addr)
  | none => do
    let saveLocals ← Run.meaning (fwEnterFunc env f.func)
    let _ ← f.code.denote call f.func f.func.body.pos
    Run.meaning (fwLeaveFunc saveLocals (.done ⟨f.func.body.last, f.func.body.last⟩))

/-- The meaning of a call by index, with `depth` nested calls at most. At depth 0 it stops for want
of depth; an index out of range is a fault at any other. -/
def callDenote : ℕ → ℕ → Meaning Status
  | 0, idx => (prog[idx]?).elim (halt (.halt (.fault .funcIdx))) fun _ => halt .depth
  | depth + 1, idx =>
    (prog[idx]?).elim (halt (.halt (.fault .funcIdx))) fun f => f.denote env (callDenote depth)

/-- The meaning of a run of a function from outside, on a machine whose operand stack it shares. -/
def Coded.runDenote (depth : ℕ) (f : Coded env.mem) (args : List (List UInt8)) (rets : Bool) :
    Meaning (Status × Option UInt32) :=
  if f.func.functype.paramCnt.toNat > args.length then pure (.err, none)
  else do
    Run.meaning (fwPushArgs (args.take f.func.functype.paramCnt.toNat))
    match ← f.denote env (callDenote env prog depth) with
    | .err => pure (.err, none)
    | .ok =>
      if rets ∧ f.func.functype.resCnt ≠ 0 then do
        let wrets ← Run.meaning (fwPop false)
        pure (.ok, some wrets.val.toUInt32)
      else pure (.ok, none)

end

/-! ## Composition

Laws of `andThen`, by which the code behind a construct is reached through its branches. -/

/-- Code in front of nothing is the code. -/
theorem andThen_nil (m : Meaning Bool) : andThen m (pure false) = m := by
  have hpure : (fun returned => if returned then pure true else pure false : Bool → Meaning Bool) =
      pure := by
    funext returned
    cases returned <;> rfl
  rw [andThen, hpure, bind_pure]

/-- A computation that does not return from the function, and code. -/
theorem andThen_of_run {α : Type} (m : Meaning α) (rest : Meaning Bool) :
    andThen (do let _ ← m; pure false) rest = (do let _ ← m; rest) := by
  rw [andThen, bind_assoc]
  simp only [pure_bind]
  rfl

end FastWasm
