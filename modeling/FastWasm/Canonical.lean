import FastWasm.Errors

/-!
# The values of `i32` slots

A slot holds 64 bits, and the comparisons look at all of them. `i32.const` and the comparisons push
32 bits, `local.get` and `select` what was stored. The arguments of a run are the exception: the
`int` of `atoi` is converted to 64 bits with its sign. Without a negative argument, and as long as
no other value from 2^32 on is stored as an `i32`, every `i32` slot of the interpreter's own is
below 2^32 (`i32_canonical_iff`).

The condition on the steps is one on the state before each of them (`I32Log.KeepsI32`), and it is
needed because the interpreter checks no types: `local.get` tags whatever is in a local as an `i32`,
so a 64-bit value in such a local comes out as an `i32` slot. Which locals are of which type is a
parameter (`decl`), since the executor never reads the table that has them.

The invariant (`Canonical`) is about two things at once, the slots that were pushed and the blocks
of locals, because a value goes from a slot into a local and back. It is followed by a monitor over
the log, which knows what is pushing at every point of a run, and whose condition is a hypothesis of
the triples and not a claim of theirs: as soon as a step breaks it, nothing is said any more.
-/

namespace FastWasm

open Logged

/-! ## The slots of a run

What is asked about are the slots that the interpreter itself pushes as an `i32`. The results of
host functions are not among them, and a value that a program reads from a local of another type is
not an `i32` of its own either. -/

/-- What pushes at a point of a run: the arguments from outside, an instruction, or a host function
with its results. -/
inductive Pusher where
  /-- `fw_module_run_func`, the arguments -/
  | args
  /-- `fw_module_run_host_func`, the results -/
  | host
  /-- the instruction at an address -/
  | instr (pos : ℕ)

/-- What a log tells of the `i32` slots and of the blocks that locals are kept in: what pushes now,
the slots pushed so far as an `i32` by the interpreter itself, and the function that each block was
allocated for. -/
structure I32Log where
  /-- what pushes -/
  pusher : Pusher
  /-- the functions entered and not left, the innermost first -/
  calls : List FwModuleFunc
  /-- the functions that the locals blocks were allocated for -/
  owners : List FwModuleFunc
  /-- a block was allocated for the function that is entered next -/
  fresh : Bool
  /-- the `FW_I32` slots that the interpreter itself has pushed -/
  made : List Slot

namespace I32Log

/-- Before a run, when the arguments are what pushes and there is no block. -/
def start : I32Log := ⟨.args, [], [], false, []⟩

/-- The function that a block of locals was allocated for. -/
def owner (g : I32Log) (p : Option ℕ) : Option FwModuleFunc := p.bind (g.owners[·]?)

/-- A slot that may be stored as an `i32`: it was pushed as one by the interpreter, or is below
2^32. -/
def Fits (g : I32Log) (st : Slot) : Prop := st ∈ g.made ∨ st.val.toNat < 2 ^ 32

end I32Log

/-- The type of a local: those of the parameters are in the type of the function, and `local_type`,
which the executor never reads, is a parameter. -/
def FwModuleFunc.localType (decl : FwModuleFunc → ℕ → UInt8) (func : FwModuleFunc) (idx : ℕ) :
    UInt8 :=
  if idx < func.functype.paramCnt.toNat then func.functype.val.getD idx 0
  else decl func (idx - func.functype.paramCnt.toNat)

/-- The handler that an opcode in memory has, where its row has one. -/
def handlerAt (mem : Mem) (pos : ℕ) : Option RunFn := (fwGetInstr (mem pos)).bind (·.run)

/-- The 32-bit number behind an opcode, wherever the window ends. -/
def immediateAt (mem : Mem) (pos : ℕ) : ℕ :=
  match fwStrLebGetuRounds mem (pos + 1) 256 0 0 0 with
  | none => 0
  | some (_, val) => val.toUInt32.toNat

/-- The slot that `select` picks. -/
def Ctx.selected (ctx : Ctx) : Slot :=
  if (ctx.stack (ctx.pos - 1)).val ≠ 0 then ctx.stack (ctx.pos - 3) else ctx.stack (ctx.pos - 2)

theorem immediateAt_of_got {mem : Mem} {pos last maxbit : ℕ} {val : UInt64} {body : FwStr}
    (h : fwStrLebGetu mem ⟨pos + 1, last⟩ maxbit = .got val body) :
    immediateAt mem pos = val.toUInt32.toNat := by
  rw [fwStrLebGetu] at h
  split at h
  · cases h
  · rw [immediateAt]
    rcases hr : fwStrLebGetuRounds mem (pos + 1) 256 0 0 0 with _ | ⟨round, res⟩
    · simp [hr] at h
    · simp only [hr] at h
      split at h
      · cases h
      · obtain ⟨rfl, -⟩ := LebRead.got.inj h
        rfl

section

variable (decl : FwModuleFunc → ℕ → UInt8) (env : Env)

/-- A slot pushed now is one that the interpreter itself produces as an `i32`: an argument, an
`i32.const`, a comparison, a `select`, or a `local.get` of a local that the running function
declares as an `i32`. -/
def I32Log.own (g : I32Log) : Bool :=
  match g.pusher with
  | .args => true
  | .host => false
  | .instr pos =>
    match handlerAt env.mem pos with
    | some .i32Const | some .i32Eqz | some .i32Eq | some .i32Ne | some .gtS | some .select => true
    | some .localGet =>
      g.calls.head?.any fun func => func.localType decl (immediateAt env.mem pos) == fwI32
    | _ => false

/-- One event more. A push is a step that makes the stack deeper. -/
def I32Log.step (g : I32Log) : Event → I32Log
  | .slot _ before after =>
    let st := after.stack before.pos
    if after.pos = before.pos + 1 ∧ g.own decl env ∧ st.type = fwI32 then
      { g with made := g.made ++ [st] }
    else g
  | .fetch pos _ => { g with pusher := .instr pos }
  | .host _ _ => { g with pusher := .host }
  | .alloc _ => { g with fresh := true }
  | .enter func _ => { g with
    calls := func :: g.calls
    owners := if g.fresh then g.owners ++ [func] else g.owners
    fresh := false }
  | .leave => { g with calls := g.calls.tail }
  | _ => g

/-- The slots on top of the stack may be stored in the `i32` parameters of a function, the last one
from the top slot. -/
def I32Log.ArgsFit (g : I32Log) (func : FwModuleFunc) (ctx : Ctx) : Prop :=
  ∀ i < func.functype.paramCnt.toNat,
    func.localType decl (func.functype.paramCnt.toNat - i - 1) = fwI32 →
      g.Fits (ctx.stack (ctx.pos - (i + 1)))

/-- The next step stores no value as an `i32` that is not one: not in an `i32` local or parameter,
nor with `select`. And where the function declares the local that it reads as an `i32`, so does the
function that the block was allocated for. -/
def I32Log.KeepsI32 (g : I32Log) : Event → Prop
  | .fetch pos ctx =>
    match handlerAt env.mem pos with
    | some .localGet => ∀ func ∈ g.calls.head?, ∀ owner ∈ g.owner ctx.locals,
      func.localType decl (immediateAt env.mem pos) = fwI32 →
        owner.localType decl (immediateAt env.mem pos) = fwI32
    | some .localSet | some .localTee => ∀ owner ∈ g.owner ctx.locals,
      owner.localType decl (immediateAt env.mem pos) = fwI32 → g.Fits (ctx.stack (ctx.pos - 1))
    | some .select => ctx.selected.type = fwI32 → g.Fits ctx.selected
    | some .call => ∀ func ∈ env.funcs[immediateAt env.mem pos]?, func.hostAddr = none →
      -- the number of locals does not wrap to 0
      (func.localsCnt = 0 → func.functype.paramCnt = 0) ∧ g.ArgsFit decl func ctx
    | _ => True
  | _ => True

/-- Follows the `i32` slots, as long as no step stores another value as one. -/
def i32Monitor : Monitor I32Log Event where
  step := I32Log.step decl env
  ok := I32Log.KeepsI32 decl env

end

/-! ## What keeps the blocks and the slots

Most of what a handler does is neither a push nor about blocks. Its events do not change what is
known, and it leaves the heap alone. -/

/-- Events that say nothing about `i32` slots and blocks. -/
def Event.Still : Event → Prop
  | .slot _ before after => after.pos ≠ before.pos + 1
  | .limit | .ret _ _ _ _ | .free _ | .uninit _ | .errLabel _ _ | .err => True
  | .fetch _ _ | .enter _ _ | .leave | .alloc _ | .host _ _ => False

/-- Pushes nothing, and leaves the blocks alone: what a handler does when it pops, fails or returns.
-/
abbrev HeapKept {α : Type} (m : Run α) : Prop := Spares Event.Still Machine.heap m

namespace HeapKept

theorem pop (peek : Bool) : HeapKept (fwPop peek) := Spares.of_apply fun s => by
  rw [fwPop_apply]
  split
  · exact .inl ⟨_, _, rfl, by simp [Event.Still]⟩
  · refine .inr ⟨_, _, _, rfl, List.forall_mem_singleton.mpr ?_, rfl⟩
    cases peek
    · change s.ctx.pos - 1 ≠ s.ctx.pos + 1
      omega
    · exact Nat.ne_of_lt (Nat.lt_succ_self _)

theorem stackCopy (dst src : ℕ) : HeapKept (fwStackCopy dst src) := Spares.of_apply fun s =>
  .inr ⟨_, _, _, fwStackCopy_apply s dst src, by simp [Event.Still, Ctx.copy], rfl⟩

theorem tick : HeapKept nextTick := Spares.of_apply fun s =>
  .inr ⟨_, _, _, nextTick_apply s, by simp, rfl⟩

theorem setCtx (f : Ctx → Ctx) : HeapKept (get >>= fun s => set { s with ctx := f s.ctx }) :=
  Spares.of_apply fun s => .inr ⟨_, _, _, get_bind_apply _ s, by simp, rfl⟩

/-- An error path, which emits its event and returns. -/
theorem error {α : Type} (a : α) : HeapKept (do emit .err; pure a : Run α) :=
  Spares.bind (.emit trivial) fun _ => .pure _

theorem moveRets : ∀ n oldpos i, HeapKept (fwMoveRets n oldpos i)
  | 0, _, _ => .pure _
  | n + 1, oldpos, i => (stackCopy oldpos i).bind fun _ => moveRets n (oldpos + 1) (i + 1)

theorem moveRetsTo (oldpos i : ℕ) : HeapKept (fwMoveRetsTo oldpos i) := by
  refine .ite (fun _ s => ?_) fun _ => .pure _
  rw [get_bind_apply]
  exact (moveRets _ _ _).bind (fun newpos => setCtx fun ctx => { ctx with pos := newpos }) s

theorem return_ (func : FwModuleFunc) (body : FwStr) : HeapKept (fwInstrRunReturn func body) := by
  intro s
  obtain ⟨i, happly⟩ := fwInstrRunReturn_apply func s
  rw [happly]
  refine (moveRetsTo _ i).bind (fun _ s' => ?_) s
  rw [get_bind_apply]
  exact Spares.bind (.emit trivial) (fun _ => .pure _) s'

theorem popArgs (ft : FwModuleType) : ∀ n args, HeapKept (fwPopArgs ft n args)
  | 0, _ => .pure _
  | n + 1, args => by
    refine (pop false).bind fun st => ?_
    cases ft.val[n]? with
    | none => exact .halt _
    | some type => exact .ite (fun _ => error _) fun _ => popArgs ft n _

end HeapKept

/-! ## The invariant

The two halves need each other. A slot that `local.get` pushes is below 2^32 because the local is,
and a local is because what was stored in it was. -/

section

variable (decl : FwModuleFunc → ℕ → UInt8)

/-- The `i32` locals of a block that was allocated for a function are below 2^32. -/
def BlockFits (func : FwModuleFunc) (b : FwFuncLocals) : Prop :=
  ∀ idx v, b.locals[idx]? = some v → func.localType decl idx = fwI32 → v.toNat < 2 ^ 32

/-- The slots that the interpreter has pushed as an `i32` are below 2^32. -/
def I32Log.MadeFit (g : I32Log) : Prop := ∀ st ∈ g.made, st.type = fwI32 ∧ st.val.toNat < 2 ^ 32

/-- The slots that the interpreter has pushed as an `i32` are below 2^32, and so are the `i32`
locals in the blocks, each of which was allocated for a function. -/
structure Canonical (g : I32Log) (heap : List (Option FwFuncLocals)) : Prop where
  /-- the slots -/
  made : g.MadeFit
  /-- no function is half entered -/
  entered : g.fresh = false
  /-- each block has an owner -/
  owned : g.owners.length = heap.length
  /-- the blocks -/
  blocks : ∀ (id : ℕ) (func : FwModuleFunc) (b : FwFuncLocals), g.owners[id]? = some func →
    heap[id]? = some (some b) → BlockFits decl func b

end

section

variable {decl : FwModuleFunc → ℕ → UInt8} {env : Env} {g : I32Log}
  {heap : List (Option FwFuncLocals)} {func : FwModuleFunc}

/-- A block without values yet: all locals of a new block are 0. -/
theorem blockFits_zero (n : ℕ) : BlockFits decl func ⟨n, List.replicate n 0⟩ := by
  intro idx v hv _
  rw [List.getElem?_replicate] at hv
  split at hv
  · obtain rfl := Option.some.inj hv
    decide
  · cases hv

/-- A value is stored that is an `i32` where the local is one. -/
theorem BlockFits.set {b : FwFuncLocals} {idx : ℕ} {val : UInt64} (h : BlockFits decl func b)
    (hval : func.localType decl idx = fwI32 → val.toNat < 2 ^ 32) :
    BlockFits decl func { b with locals := b.locals.set idx val } := by
  intro k v hv htype
  change (b.locals.set idx val)[k]? = some v at hv
  by_cases hk : idx = k
  · subst hk
    rw [List.getElem?_set_self'] at hv
    obtain ⟨_, -, rfl⟩ := Option.map_eq_some_iff.mp hv
    exact hval htype
  · rw [List.getElem?_set_ne hk] at hv
    exact h k v hv htype

/-- What may be stored as an `i32` is below 2^32, when what was pushed is. -/
theorem I32Log.MadeFit.lt (h : g.MadeFit) {st : Slot} (hst : g.Fits st) :
    st.val.toNat < 2 ^ 32 :=
  hst.elim (fun hmade => (h st hmade).2) id

namespace Canonical

/-- Only the slots and the blocks matter, not what is pushing or which functions are open. -/
theorem congr {g' : I32Log} (h : Canonical decl g heap) (hmade : g'.made = g.made)
    (hfresh : g'.fresh = g.fresh) (howners : g'.owners = g.owners) : Canonical decl g' heap where
  made := by rw [I32Log.MadeFit, hmade]; exact h.made
  entered := by rw [hfresh, h.entered]
  owned := by rw [howners, h.owned]
  blocks := by rw [howners]; exact h.blocks

/-- A block is written, or freed. -/
theorem set (h : Canonical decl g heap) {id : ℕ} {block : Option FwFuncLocals}
    (hblock : ∀ func b, g.owners[id]? = some func → block = some b → BlockFits decl func b) :
    Canonical decl g (heap.set id block) where
  made := h.made
  entered := h.entered
  owned := by rw [List.length_set, h.owned]
  blocks k func b hfunc hb := by
    by_cases hk : id = k
    · subst hk
      rw [List.getElem?_set_self'] at hb
      obtain ⟨_, -, hb⟩ := Option.map_eq_some_iff.mp hb
      exact hblock func b hfunc hb
    · rw [List.getElem?_set_ne hk] at hb
      exact h.blocks k func b hfunc hb

/-- A slot is pushed. -/
theorem push (h : Canonical decl g heap) {st : Slot}
    (hst : g.own decl env → st.type = fwI32 → st.val.toNat < 2 ^ 32) (ctx : Ctx) :
    Canonical decl (g.step decl env (.slot ctx.pos ctx (ctx.push st))) heap := by
  have hself : (ctx.push st).stack ctx.pos = st := Function.update_self ..
  rw [I32Log.step]
  simp only [hself]
  split
  next hc =>
    refine ⟨fun st' hst' => ?_, h.entered, h.owned, h.blocks⟩
    rcases List.mem_append.mp hst' with hold | hnew
    · exact h.made st' hold
    · obtain rfl := List.mem_singleton.mp hnew
      exact ⟨hc.2.2, hst hc.2.1 hc.2.2⟩
  next => exact h

end Canonical

/-! ## Handlers

A handler is a sequence of pops, reads, pushes and writes, and there is a rule for each of them. At
the start of an instruction its step is known to store no other value as an `i32`, and the rule for
the push or the write at its end uses that. -/

variable {pos last : ℕ} {r : Interp} {body : FwStr} {p : Pusher}

theorem i32Step_still (g : I32Log) (e : Event) (he : e.Still) :
    (i32Monitor decl env).step g e = g := by
  cases e with
  | slot i before after => exact if_neg fun h => he h.1
  | limit | ret | free | uninit | errLabel | err => rfl
  | fetch | enter | leave | alloc | host => exact he.elim

/-- While the same thing pushes: the slots and the blocks fit, and `p` is what pushes. -/
def Pushing (decl : FwModuleFunc → ℕ → UInt8) (p : Pusher) (g : I32Log)
    (heap : List (Option FwFuncLocals)) : Prop :=
  Canonical decl g heap ∧ g.pusher = p

/-- At the instruction at `pos`, before its handler runs: the opcode was fetched with the stack that
the machine has. -/
def AtInstr (decl : FwModuleFunc → ℕ → UInt8) (env : Env) (pos : ℕ) (g : I32Log) (s : Machine) :
    Prop :=
  Pushing decl (.instr pos) g s.heap ∧ g.KeepsI32 decl env (.fetch pos s.ctx)

/-- However a run ends, the slots that it has pushed fit. -/
abbrev EndsFit : Halt → I32Log → Prop := fun _ g => g.MadeFit

/-- From `P`, when no step stores another value as an `i32`, the slots and the blocks fit behind.
When one does, nothing is said. -/
def EndsCanonical (decl : FwModuleFunc → ℕ → UInt8) (env : Env) (P : I32Log → Machine → Prop)
    {α : Type} (m : Run α) : Prop :=
  Given (i32Monitor decl env) P m (fun _ g s => Canonical decl g s.heap) EndsFit

/-- The same, and `p` is what pushes, before and behind. -/
def EndsPushing (decl : FwModuleFunc → ℕ → UInt8) (env : Env) (p : Pusher)
    (P : I32Log → Machine → Prop) {α : Type} (m : Run α) : Prop :=
  Given (i32Monitor decl env) P m (fun _ g s => Pushing decl p g s.heap) EndsFit

/-- A computation that keeps the slots and the blocks, when no step stores another value as an
`i32`. -/
abbrev KeepsCanonical (decl : FwModuleFunc → ℕ → UInt8) (env : Env) {α : Type} (m : Run α) : Prop :=
  EndsCanonical decl env (fun g s => Canonical decl g s.heap) m

/-- The same, while `p` pushes. -/
abbrev KeepsPushing (decl : FwModuleFunc → ℕ → UInt8) (env : Env) (p : Pusher) {α : Type}
    (m : Run α) : Prop :=
  EndsPushing decl env p (fun g s => Pushing decl p g s.heap) m

namespace HeapKept

variable {α : Type} {m : Run α}

theorem pushing (h : HeapKept m) : KeepsPushing decl env p m :=
  Given.of_spares h i32Step_still fun _ _ _ hJ => hJ.1.made

theorem canonical (h : HeapKept m) : KeepsCanonical decl env m :=
  Given.of_spares h i32Step_still fun _ _ _ hJ => hJ.made

end HeapKept

/-- A push of a slot that is below 2^32 where it counts. -/
theorem push_pushing {st : Slot} : EndsPushing decl env p
    (fun g s => Pushing decl p g s.heap ∧
      (g.own decl env → st.type = fwI32 → st.val.toNat < 2 ^ 32)) (fwPush st) := by
  rintro g s ⟨⟨hcan, hp⟩, hst⟩ -
  rw [fwPush_apply]
  split
  · exact hcan.made
  · refine ⟨hcan.push hst s.ctx, ?_⟩
    rw [Monitor.after_cons, Monitor.after_nil, ← hp]
    change I32Log.pusher (if _ then _ else _) = _
    split <;> rfl

/-- A pop, from what is known of the stack. The stack itself is only known to be as it was when the
opcode was fetched. -/
theorem pop_pushing {P : I32Log → Machine → Prop} {Q : Slot → I32Log → Machine → Prop}
    (peek : Bool) (hP : ∀ g s, P g s → Canonical decl g s.heap)
    (hQ : ∀ g s, P g s → Q (s.ctx.stack (s.ctx.pos - 1)) g
      { s with ctx := if peek then s.ctx else s.ctx.pop }) :
    Given (i32Monitor decl env) P (fwPop peek) Q EndsFit := by
  intro g s hs _
  have hstill := Monitor.after_eq_self (M := i32Monitor decl env) i32Step_still
    (HeapKept.pop peek s).1 (g := g)
  rw [hstill, fwPop_apply]
  split
  · exact (hP g s hs).made
  · exact hQ g s hs

/-- A write of a value that is below 2^32 where it counts. -/
theorem write_pushing {q : Option ℕ} {idx : ℕ} {val : UInt64} : EndsPushing decl env p
    (fun g s => Pushing decl p g s.heap ∧ ∀ owner ∈ g.owner q,
      owner.localType decl idx = fwI32 → val.toNat < 2 ^ 32) (fwLocalsWrite q idx val) := by
  rintro g s ⟨⟨hcan, hp⟩, hval⟩ -
  obtain ⟨res, hm, ⟨f, rfl⟩ | ⟨id, b, rfl, hb, rfl⟩⟩ := fwLocalsWrite_apply s q idx val <;> rw [hm]
  · exact hcan.made
  · refine ⟨hcan.set fun func b' hfunc hb' => ?_, hp⟩
    obtain rfl := Option.some.inj hb'
    exact (hcan.blocks id func b hfunc (Option.join_eq_some_iff.mp hb)).set (hval func hfunc)

/-- A number is read, and the rest goes on from the same state. -/
theorem readLeb_pushing {P : I32Log → Machine → Prop} {maxbit : ℕ}
    {k : UInt64 → FwStr → Run (Status × FwStr)}
    (hP : ∀ g s, P g s → Pushing decl p g s.heap)
    (hk : ∀ val body', fwStrLebGetu env.mem body maxbit = .got val body' →
      EndsPushing decl env p P (k val body')) :
    EndsPushing decl env p P (readLeb env maxbit body k) := by
  rw [readLeb]
  cases hr : fwStrLebGetu env.mem body maxbit with
  | hang => exact Given.halt fun g s hs => (hP g s hs).1.made
  | strErr => exact (HeapKept.error _).pushing.pre hP
  | got val body' => exact hk val body' hr

/-- The last push of a handler, behind which it returns. -/
theorem push_last {st : Slot} {α : Type} (a : α) : EndsPushing decl env p
    (fun g s => Pushing decl p g s.heap ∧
      (g.own decl env → st.type = fwI32 → st.val.toNat < 2 ^ 32))
    (do fwPush st; pure a : Run α) :=
  push_pushing.bind fun _ => Given.pure fun _ _ h => h

/-- The last write of a handler, to the block that `ctx->locals` points to. -/
theorem write_last {idx : ℕ} {val : UInt64} {α : Type} (a : α) : EndsPushing decl env p
    (fun g s => Pushing decl p g s.heap ∧ ∀ owner ∈ g.owner s.ctx.locals,
      owner.localType decl idx = fwI32 → val.toNat < 2 ^ 32)
    (do let s ← get; fwLocalsWrite s.ctx.locals idx val; pure a : Run α) := by
  refine Given.get_bind fun s₀ => Given.bind (write_pushing.pre ?_) fun _ =>
    Given.pure fun _ _ h => h
  rintro g s ⟨hs, rfl⟩
  exact hs

/-- There is room, or the run ends at the limit, and then everything that was pushed fits. -/
theorem room_given {P : I32Log → Machine → Prop} (hP : ∀ g s, P g s → Canonical decl g s.heap) :
    Given (i32Monitor decl env) P fwPushRoom (fun _ => P) EndsFit := by
  intro g s hs _
  rw [fwPushRoom_apply]
  split
  · exact (hP g s hs).made
  · exact hs

/-- A local that is read is in the block that `ctx->locals` points to. -/
theorem read_given {P : I32Log → Machine → Prop} (hP : ∀ g s, P g s → Canonical decl g s.heap)
    (idx : ℕ) : Given (i32Monitor decl env) P (fwLocalsRead idx)
      (fun v g s => P g s ∧ ∃ b, s.block s.ctx.locals = some b ∧ b.locals[idx]? = some v)
      EndsFit := by
  intro g s hs _
  rw [fwLocalsRead, get_bind_apply]
  rcases hb : s.block s.ctx.locals with _ | b
  · exact (hP g s hs).made
  · rcases hv : b.locals[idx]? with _ | v <;> simp only [hv]
    · exact (hP g s hs).made
    · exact ⟨hs, b, hb, hv⟩

/-- A comparison pushes 0 or 1, which is below 2^32. -/
theorem ofBool_lt (b : Bool) : (Slot.ofBool b).val.toNat < 2 ^ 32 := by
  cases b <;> decide

theorem ofBool_last {b : Bool} {α : Type} (a : α) :
    KeepsPushing decl env p (do fwPush (.ofBool b); pure a : Run α) :=
  (push_last a).pre fun _ _ h => ⟨h, fun _ _ => ofBool_lt b⟩

/-- What is read from an `i32` local is below 2^32. The local is in the block of the function that
is running, or of one that has an `i32` local there too. -/
theorem localGet_pushing (hfn : handlerAt env.mem pos = some .localGet) :
    EndsPushing decl env (.instr pos) (AtInstr decl env pos)
      (fwInstrRunLocalGet env ⟨pos + 1, last⟩) := by
  refine readLeb_pushing (fun _ _ h => h.1) fun idx body' hr => ?_
  refine (room_given fun _ _ h => h.1.1).bind fun _ =>
    (read_given (fun _ _ h => h.1.1) _).bind fun v => (push_last _).pre ?_
  rintro g s ⟨⟨⟨hcan, hp⟩, hkeeps⟩, b, hb, hv⟩
  refine ⟨⟨hcan, hp⟩, fun hown _ => ?_⟩
  simp only [I32Log.own, hp, hfn, Option.any_eq_true, beq_iff_eq] at hown
  simp only [I32Log.KeepsI32, hfn] at hkeeps
  obtain ⟨func, hfunc, htype⟩ := hown
  rcases hlocals : s.ctx.locals with _ | id
  · rw [hlocals] at hb
    cases hb
  · rw [hlocals] at hb hkeeps
    have hid := Option.join_eq_some_iff.mp hb
    have hlt : id < g.owners.length := by
      rw [hcan.owned]
      exact (List.getElem?_eq_some_iff.mp hid).1
    have howner : g.owners[id]? = some g.owners[id] := List.getElem?_eq_getElem hlt
    rw [immediateAt_of_got hr] at hkeeps htype
    exact hcan.blocks id _ b howner hid _ v hv (hkeeps func hfunc _ howner htype)

/-- What `local.set` and `local.tee` store in an `i32` local is below 2^32. -/
theorem fits_of_keeps {g : I32Log} {s : Machine} {idx : UInt64} {body' : FwStr}
    (hfn : handlerAt env.mem pos = some .localSet ∨ handlerAt env.mem pos = some .localTee)
    (hs : AtInstr decl env pos g s)
    (hr : fwStrLebGetu env.mem ⟨pos + 1, last⟩ 32 = .got idx body') :
    ∀ owner ∈ g.owner s.ctx.locals, owner.localType decl idx.toUInt32.toNat = fwI32 →
      (s.ctx.stack (s.ctx.pos - 1)).val.toNat < 2 ^ 32 := by
  obtain ⟨⟨hcan, -⟩, hkeeps⟩ := hs
  intro owner howner htype
  rw [← immediateAt_of_got hr] at htype
  rcases hfn with hfn | hfn
  all_goals
    simp only [I32Log.KeepsI32, hfn] at hkeeps
    exact hcan.made.lt (hkeeps owner howner htype)

theorem localSet_pushing (hfn : handlerAt env.mem pos = some .localSet) :
    EndsPushing decl env (.instr pos) (AtInstr decl env pos)
      (fwInstrRunLocalSet env ⟨pos + 1, last⟩) := by
  refine (pop_pushing false (fun _ _ h => h.1.1)
    (Q := fun cur g s => Pushing decl (.instr pos) g s.heap ∧ ∀ idx body',
      fwStrLebGetu env.mem ⟨pos + 1, last⟩ 32 = .got idx body' → ∀ owner ∈ g.owner s.ctx.locals,
        owner.localType decl idx.toUInt32.toNat = fwI32 → cur.val.toNat < 2 ^ 32)
    fun g s hs => ⟨hs.1, fun idx body' hr => fits_of_keeps (.inl hfn) hs hr⟩).bind fun cur => ?_
  exact readLeb_pushing (fun _ _ h => h.1) fun idx body' hr =>
    (write_last _).pre fun g s hs => ⟨hs.1, hs.2 idx body' hr⟩

theorem localTee_pushing (hfn : handlerAt env.mem pos = some .localTee) :
    EndsPushing decl env (.instr pos) (AtInstr decl env pos)
      (fwInstrRunLocalTee env ⟨pos + 1, last⟩) := by
  refine readLeb_pushing (fun _ _ h => h.1) fun idx body' hr => ?_
  exact (pop_pushing true (fun _ _ h => h.1.1) fun g s hs =>
    ⟨hs.1, fits_of_keeps (.inr hfn) hs hr⟩).bind fun cur => write_last _

/-- What `select` picks as an `i32` is below 2^32, since its step has looked at the slot that is
picked. -/
theorem select_pushing (hfn : handlerAt env.mem pos = some .select) :
    EndsPushing decl env (.instr pos) (AtInstr decl env pos) (fwInstrRunSelect body) := by
  have hpicked : ∀ g s, AtInstr decl env pos g s → s.ctx.selected.type = fwI32 →
      s.ctx.selected.val.toNat < 2 ^ 32 := by
    rintro g s ⟨⟨hcan, -⟩, hkeeps⟩ htype
    simp only [I32Log.KeepsI32, hfn] at hkeeps
    exact hcan.made.lt (hkeeps htype)
  refine (pop_pushing false (fun _ _ h => h.1.1)
    (Q := fun cond g s => Pushing decl (.instr pos) g s.heap ∧ ∀ st,
      st = (if cond.val ≠ 0 then s.ctx.stack (s.ctx.pos - 2) else s.ctx.stack (s.ctx.pos - 1)) →
        st.type = fwI32 → st.val.toNat < 2 ^ 32) ?_).bind fun cond => ?_
  · refine fun g s hs => ⟨hs.1, fun st hst => ?_⟩
    have hst' : st = s.ctx.selected := by
      rw [hst, Ctx.selected]
      simp only [Bool.false_eq_true, if_false, Ctx.pop, Nat.sub_sub]
    rw [hst']
    exact hpicked g s hs
  refine (pop_pushing false (fun _ _ h => h.1.1)
    (Q := fun val2 g s => Pushing decl (.instr pos) g s.heap ∧ ∀ st,
      st = (if cond.val ≠ 0 then s.ctx.stack (s.ctx.pos - 1) else val2) →
        st.type = fwI32 → st.val.toNat < 2 ^ 32) ?_).bind fun val2 => ?_
  · refine fun g s hs => ⟨hs.1, fun st hst => hs.2 st ?_⟩
    rw [hst]
    simp only [Bool.false_eq_true, if_false, Ctx.pop, Nat.sub_sub]
  exact (pop_pushing false (fun _ _ h => h.1.1) fun g s hs =>
    ⟨hs.1, fun _ => hs.2 _ rfl⟩).bind fun val1 => push_last _

/-- The handlers that do not call back, by cases. Only the pushes matter: a slot that is not tagged
`FW_I32` is canonical for free, a flag is 0 or 1, `i32.const` pushes 32 bits, and what `select` and
the reads of a local push is what they found. -/
theorem leaf_pushing {fn : RunFn} (hfn : handlerAt env.mem pos = some fn) (hif : fn ≠ .if_)
    (hcall : fn ≠ .call) :
    EndsPushing decl env (.instr pos) (AtInstr decl env pos)
      (fn.run env r func ⟨pos + 1, last⟩) := by
  have hstart : ∀ g s, AtInstr decl env pos g s → Pushing decl (.instr pos) g s.heap :=
    fun _ _ h => h.1
  -- a push that is not tagged `FW_I32`
  have hother : ∀ {st : Slot} (type : UInt8), type ≠ fwI32 → st.type = type →
      ∀ a : Status × FwStr, KeepsPushing decl env (.instr pos) (do fwPush st; pure a) :=
    fun type hne htype a => (push_last a).pre fun _ _ h =>
      ⟨h, fun _ hi32 => absurd (htype.symm.trans hi32) hne⟩
  cases fn with
  | block =>
    refine (readLeb_pushing (fun _ _ h => h) fun resType body' _ => ?_).pre hstart
    cases fwInstrFindBlk func.blks body'.pos with
    | none => exact (HeapKept.error _).pushing
    | some blk => exact hother fwInstrBlock (by decide) rfl _
  | loop =>
    exact (readLeb_pushing (fun _ _ h => h) fun _ _ _ =>
      hother fwInstrLoop (by decide) rfl _).pre hstart
  | if_ => exact absurd rfl hif
  | else_ =>
    refine Given.pre ((HeapKept.pop false).pushing.bind fun st =>
      Given.ite (fun _ => (HeapKept.error _).pushing) fun _ => ?_) hstart
    cases st.priv.bind (·.fin) with
    | none => exact Given.halt fun _ _ h => h.1.made
    | some fin => exact Given.pure fun _ _ h => h
  | end_ => exact Given.pure hstart
  | return_ => exact (HeapKept.return_ func _).pushing.pre hstart
  | call => exact absurd rfl hcall
  | drop =>
    exact Given.pre ((HeapKept.pop false).pushing.bind fun _ => Given.pure fun _ _ h => h) hstart
  | select => exact select_pushing hfn
  | localGet => exact localGet_pushing hfn
  | localSet => exact localSet_pushing hfn
  | localTee => exact localTee_pushing hfn
  | i32Const =>
    refine (readLeb_pushing (fun _ _ h => h) fun val _ _ => (push_last _).pre fun _ _ h =>
      ⟨h, fun _ _ => ?_⟩).pre hstart
    exact val.toUInt32.toNat_lt
  | i64Const =>
    exact (readLeb_pushing (fun _ _ h => h) fun _ _ _ => hother fwI64 (by decide) rfl _).pre hstart
  | f32Const =>
    exact (readLeb_pushing (fun _ _ h => h) fun _ _ _ => hother fwF32 (by decide) rfl _).pre hstart
  | f64Const =>
    exact (readLeb_pushing (fun _ _ h => h) fun _ _ _ => hother fwF64 (by decide) rfl _).pre hstart
  | i32Eqz => exact Given.pre ((HeapKept.pop false).pushing.bind fun _ => ofBool_last _) hstart
  | i32Eq | gtS =>
    exact Given.pre ((HeapKept.pop false).pushing.bind fun _ =>
      (HeapKept.pop false).pushing.bind fun _ => ofBool_last _) hstart
  | i32Ne =>
    exact Given.pre ((HeapKept.pop false).pushing.bind fun _ =>
      (HeapKept.pop false).pushing.bind fun _ =>
        Given.ite (fun _ => (HeapKept.error _).pushing) fun _ => ofBool_last _) hstart

/-! ## Calls

A call of a wasm function changes what is running and what pushes; behind it the caller is running
again and its instruction is over. A host function pushes its results, which are not slots of the
interpreter's own. -/

/-- What a function needs of its arguments: they fit, and there is a block for them, when it is not
a host function. -/
def Entered (decl : FwModuleFunc → ℕ → UInt8) (func : FwModuleFunc) (g : I32Log) (s : Machine) :
    Prop :=
  Canonical decl g s.heap ∧ (func.hostAddr = none →
    (func.localsCnt = 0 → func.functype.paramCnt = 0 ∨ s.heap = []) ∧ g.ArgsFit decl func s.ctx)

/-- The results of a host function are not the interpreter's own. -/
theorem pushRets_canonical (ft : FwModuleType) (rets : ℕ → UInt64) :
    ∀ n i, KeepsPushing decl env .host (fwPushRets ft rets n i)
  | 0, _ => Given.pure fun _ _ h => h
  | n + 1, i => by
    rw [fwPushRets]
    cases ft.val[ft.paramCnt.toNat]? with
    | none => exact Given.halt fun _ _ h => h.1.made
    | some type =>
      refine Given.bind (push_pushing.pre fun g s h => ⟨h, fun hown _ => ?_⟩) fun _ =>
        pushRets_canonical ft rets n (i + 1)
      simp only [I32Log.own, h.2, Bool.false_eq_true] at hown

theorem hostFunc_canonical (addr : ℕ) :
    KeepsCanonical decl env (fwModuleRunHostFunc env func addr) := by
  refine (HeapKept.popArgs _ _ _).canonical.bind fun args => ?_
  cases args with
  | none => exact Given.pure fun _ _ h => h
  | some args =>
    refine HeapKept.tick.canonical.bind fun n => ?_
    rw [_fwModuleRunHostFunc]
    cases fwHostArgs args with
    | none => exact (HeapKept.error _).canonical
    | some argv =>
      refine Given.bind (R := fun rets g s => (∃ rets', rets = some rets') ∧
        Pushing decl .host g s.heap) (Given.emit_bind (fun g s h _ => ?_)
          (Given.pure fun g s h => ⟨⟨_, rfl⟩, h⟩)) fun rets => ?_
      · exact ⟨h.congr rfl rfl rfl, rfl⟩
      · rintro g s ⟨⟨rets', rfl⟩, h⟩
        exact Given.bind (pushRets_canonical _ _ _ _) (fun _ => Given.pure fun _ _ h => h.1) g s h

/-- A call, when the callee keeps the slots and the blocks. That the arguments fit the parameters is
part of the condition on the state in which the opcode is fetched. -/
theorem call_canonical (hfn : handlerAt env.mem pos = some .call)
    (hfunc : ∀ f, EndsCanonical decl env (Entered decl f) (r.func f)) :
    EndsCanonical decl env (AtInstr decl env pos) (fwInstrRunCall env r ⟨pos + 1, last⟩) := by
  rw [fwInstrRunCall, readLeb]
  cases hr : fwStrLebGetu env.mem ⟨pos + 1, last⟩ 32 with
  | hang => exact Given.halt fun _ _ h => h.1.1.made
  | strErr => exact (HeapKept.error _).canonical.pre fun _ _ h => h.1.1
  | got idx body' =>
    cases hf : env.funcs[idx.toUInt32.toNat]? with
    | none =>
      simp only [hf]
      exact Given.halt fun _ _ h => h.1.1.made
    | some f =>
      simp only [hf]
      refine Given.bind ((hfunc f).pre ?_) fun status => ?_
      · rintro g s ⟨⟨hcan, -⟩, hkeeps⟩
        simp only [I32Log.KeepsI32, hfn, immediateAt_of_got hr] at hkeeps
        refine ⟨hcan, fun hwasm => ?_⟩
        obtain ⟨hcnt, hargs⟩ := hkeeps f hf hwasm
        exact ⟨fun h0 => .inl (hcnt h0), hargs⟩
      · cases status with
        | err => exact (HeapKept.error _).canonical
        | ok => exact Given.pure fun _ _ h => h

/-- An `if`, when the loop over its branch keeps the slots and the blocks. Whichever branch is
taken, the condition is popped and nothing is pushed, and the `RUN_ERR` paths push nothing either.
-/
theorem if_canonical (hloop : ∀ b, KeepsCanonical decl env (r.loop func b)) :
    KeepsCanonical decl env (fwInstrRunIf env r func body) := by
  rw [fwInstrRunIf, readLeb]
  cases fwStrLebGetu env.mem body 32 with
  | hang => exact Given.halt fun _ _ h => h.made
  | strErr => exact (HeapKept.error _).canonical
  | got val body' =>
    cases hfind : fwInstrFindBlk func.blks body'.pos with
    | none =>
      simp only [hfind]
      exact (HeapKept.error _).canonical
    | some blk =>
      simp only [hfind]
      refine (HeapKept.pop false).canonical.bind fun cond =>
        Given.ite (fun _ => (HeapKept.error _).canonical) fun _ =>
        Given.ite (fun _ => (HeapKept.error _).canonical) fun _ => ?_
      rcases blk.els with _ | els
      · exact Given.halt fun _ _ h => h.made
      rcases blk.fin with _ | fin
      · exact Given.halt fun _ _ h => h.made
      refine Given.bind (hloop _) fun exit => ?_
      cases exit with
      | done b =>
        exact Given.ite (fun _ => Given.pure fun _ _ h => h) fun _ => Given.pure fun _ _ h => h
      | badOpcode => exact (HeapKept.error _).canonical
      | strErr => exact Given.pure fun _ _ h => h

/-! ## Entering and leaving

The block of a function is allocated before the function is entered, and the arguments are copied
into it before that too. So for a few steps there is a block that belongs to no open function. -/

/-- Once a function is entered, the block that was allocated last is its own. -/
def I32Log.entered (g : I32Log) (func : FwModuleFunc) : I32Log where
  pusher := g.pusher
  calls := func :: g.calls
  owners := if g.fresh then g.owners ++ [func] else g.owners
  fresh := false
  made := g.made

/-- A function is being entered, and its locals are kept in its own block. -/
structure Entering (decl : FwModuleFunc → ℕ → UInt8) (func : FwModuleFunc) (locals : Option ℕ)
    (g : I32Log) (s : Machine) : Prop where
  /-- the slots and the blocks -/
  canonical : Canonical decl (g.entered func) s.heap
  /-- the arguments -/
  args : g.ArgsFit decl func s.ctx
  /-- the block -/
  own : 0 < func.functype.paramCnt.toNat → ∀ owner ∈ (g.entered func).owner locals, owner = func

/-- A block is allocated, for the function that is about to be entered. The heap and the list of
owners get longer together, so the older blocks keep their owners and the new one gets this
function. -/
theorem Canonical.alloc (h : Canonical decl g heap) {b : FwFuncLocals}
    (hb : BlockFits decl func b) :
    Canonical decl ({ g with fresh := true }.entered func) (heap ++ [some b]) where
  made := h.made
  entered := rfl
  owned := by
    change (g.owners ++ [func]).length = _
    rw [List.length_append, List.length_append, h.owned]
    rfl
  blocks id f b' hf hb' := by
    change (g.owners ++ [func])[id]? = some f at hf
    rcases Nat.lt_trichotomy id heap.length with hlt | rfl | hgt
    · rw [List.getElem?_append_left hlt] at hb'
      rw [List.getElem?_append_left (by rw [h.owned]; exact hlt)] at hf
      exact h.blocks id f b' hf hb'
    · rw [List.getElem?_concat_length] at hb'
      rw [← h.owned, List.getElem?_concat_length] at hf
      obtain rfl := Option.some.inj hf
      obtain rfl := Option.some.inj (Option.some.inj hb')
      exact hb
    · rw [List.getElem?_eq_none (by rw [List.length_append]; exact hgt)] at hb'
      cases hb'

/-- The block of a function is allocated, when it has parameters. It is full of zeros, which fit
every type. When the number of locals wraps to zero although there are parameters, no block has been
allocated yet that the uninitialised pointer could name. -/
theorem initLocals_entering (hwasm : func.hostAddr = none) :
    Given (i32Monitor decl env) (Entered decl func) (fwInitLocals env func)
      (Entering decl func) EndsFit := by
  rintro g s ⟨hcan, hentered⟩ -
  obtain ⟨hcnt, hargs⟩ := hentered hwasm
  rw [fwInitLocals]
  by_cases h0 : func.localsCnt ≠ 0
  · rw [if_pos h0, bind_eq (fwLocalsCalloc_apply s _)]
    refine ⟨hcan.alloc (blockFits_zero _), hargs, fun _ owner howner => ?_⟩
    change (g.owners ++ [func])[s.heap.length]? = some owner at howner
    rw [← hcan.owned, List.getElem?_concat_length] at howner
    exact (Option.some.inj howner).symm
  · rw [if_neg h0, bind_eq (nextTick_apply s)]
    have howners : (g.entered func).owners = g.owners := by
      rw [I32Log.entered, hcan.entered]
      rfl
    refine ⟨hcan.congr rfl hcan.entered.symm howners, hargs, fun hpos owner howner => ?_⟩
    rcases hcnt (not_not.mp h0) with hparams | hempty
    · rw [hparams] at hpos
      exact absurd hpos (Nat.lt_irrefl 0)
    · have hnil : g.owners = [] := List.eq_nil_of_length_eq_zero (by rw [hcan.owned, hempty]; rfl)
      change (Option.bind _ fun id => (g.entered func).owners[id]?) = some owner at howner
      rw [howners, hnil] at howner
      obtain ⟨id, -, hid⟩ := Option.bind_eq_some_iff.mp howner
      cases hid

/-- The arguments are copied into the block, from the last one down. Each of them is read from the
stack, where it is canonical if its parameter is an `i32`, and goes into a block that belongs to
this function. -/
theorem copyParams_entering {locals : Option ℕ} :
    ∀ i ≤ func.functype.paramCnt.toNat, Given (i32Monitor decl env) (Entering decl func locals)
      (fwCopyParams locals func.functype.paramCnt.toNat i)
      (fun _ => Entering decl func locals) EndsFit
  | 0, _ => Given.pure fun _ _ h => h
  | i + 1, hi => by
    refine Given.bind (R := fun param g s => Entering decl func locals g s ∧
      (func.localType decl (func.functype.paramCnt.toNat - i - 1) = fwI32 →
        param.val.toNat < 2 ^ 32)) (fun g s hs _ => ?_) fun param =>
      Given.bind (R := fun _ => Entering decl func locals) ?_ fun _ =>
        copyParams_entering i (Nat.le_of_succ_le hi)
    · rw [fwStackGet_apply]
      split
      · exact hs.canonical.made
      · have hstill : (i32Monitor decl env).step g (.slot (s.ctx.pos - (i + 1)) s.ctx s.ctx) = g :=
          i32Step_still g _ (by exact Nat.ne_of_lt (Nat.lt_succ_self _))
        rw [Monitor.after_cons, Monitor.after_nil, hstill]
        exact ⟨hs, fun htype => hs.canonical.made.lt (hs.args i hi htype)⟩
    · rintro g s ⟨hs, hparam⟩ -
      obtain ⟨res, hm, ⟨f, rfl⟩ | ⟨id, b, rfl, hb, rfl⟩⟩ :=
        fwLocalsWrite_apply s locals (func.functype.paramCnt.toNat - i - 1) param.val <;> rw [hm]
      · exact hs.canonical.made
      · refine ⟨hs.canonical.set fun f b' hf hb' => ?_, hs.args, hs.own⟩
        obtain rfl := Option.some.inj hb'
        obtain rfl := hs.own (Nat.lt_of_lt_of_le (Nat.succ_pos i) hi) f hf
        exact (hs.canonical.blocks id f b hf (Option.join_eq_some_iff.mp hb)).set hparam

/-- A function is entered, with arguments that fit. -/
theorem enterFunc_canonical (hwasm : func.hostAddr = none) :
    EndsCanonical decl env (Entered decl func) (fwEnterFunc env func) := by
  refine (initLocals_entering hwasm).bind fun locals =>
    (copyParams_entering _ (Nat.le_refl _)).bind fun _ => Given.get_bind fun s₀ =>
    Given.emit_bind (R := fun g (s : Machine) => Canonical decl g s.heap ∧ s = s₀) ?_
      (Given.bind (R := fun _ g (s : Machine) => Canonical decl g s.heap) (Given.set ?_) fun _ =>
        Given.pure fun _ _ h => h)
  · rintro g s ⟨hs, rfl⟩ -
    exact ⟨hs.canonical, rfl⟩
  · rintro g s ⟨hs, rfl⟩
    exact hs

/-- A block is freed. -/
theorem freeIf_canonical (q : Option ℕ) : KeepsCanonical decl env (fwLocalsFreeIf q) := by
  cases q with
  | none => exact Given.pure fun _ _ h => h
  | some id =>
    intro g s hs _
    rw [fwLocalsFreeIf, fwLocalsFree_apply]
    rcases s.block (some id) with _ | b
    · exact hs.made
    · exact hs.set fun _ _ _ h => by cases h

theorem leave_canonical (status : Status) :
    KeepsCanonical decl env (do emit .leave; pure status : Run Status) :=
  Given.emit_bind (R := fun g (s : Machine) => Canonical decl g s.heap)
    (fun _ _ h _ => h.congr rfl rfl rfl) (Given.pure fun _ _ h => h)

theorem errLabel_canonical (saved : Option ℕ) : KeepsCanonical decl env (fwErrLabel saved) := by
  refine Given.get_bind fun s₀ => Given.pre ?_ fun g s (h : Canonical decl g s.heap ∧ s = s₀) => h.1
  exact Given.emit_bind (R := fun g (s : Machine) => Canonical decl g s.heap) (fun _ _ h _ => h)
    ((freeIf_canonical saved).bind fun _ => leave_canonical _)

/-- A function is left. -/
theorem leaveFunc_canonical (saved : Option ℕ) (exit : LoopExit) :
    KeepsCanonical decl env (fwLeaveFunc saved exit) := by
  cases exit with
  | done body =>
    refine Given.get_bind fun s₀ => Given.bind ((freeIf_canonical _).pre fun _ _ h => h.1) fun _ =>
      Given.get_bind fun s₁ => Given.bind (R := fun _ g (s : Machine) => Canonical decl g s.heap)
        (Given.set ?_) fun _ =>
        Given.ite (fun _ => errLabel_canonical saved) fun _ => leave_canonical _
    rintro g s ⟨h, rfl⟩
    exact h
  | badOpcode =>
    exact Given.bind (HeapKept.canonical (Spares.emit trivial)) fun _ => errLabel_canonical saved
  | strErr => exact leave_canonical _

/-! ## Whole runs

From the handlers, and the calls and loops that they go back into, by induction on the number of
steps. -/

/-- A function, when its loop keeps the slots and the blocks. -/
theorem func_canonical (hloop : ∀ f b, KeepsCanonical decl env (r.loop f b)) :
    EndsCanonical decl env (Entered decl func) (_fwModuleRunFunc env r func) := by
  cases hh : func.hostAddr with
  | some addr =>
    simp only [_fwModuleRunFunc, hh]
    exact (hostFunc_canonical addr).pre fun _ _ h => h.1
  | none =>
    simp only [_fwModuleRunFunc, hh]
    exact (enterFunc_canonical hh).bind fun saved => (hloop func func.body).bind fun exit =>
      leaveFunc_canonical saved exit

/-- Every handler, when what it calls back into keeps the slots and the blocks. -/
theorem run_canonical {fn : RunFn} (hfn : handlerAt env.mem pos = some fn)
    (hfunc : ∀ f, EndsCanonical decl env (Entered decl f) (r.func f))
    (hloop : ∀ f b, KeepsCanonical decl env (r.loop f b)) :
    EndsCanonical decl env (AtInstr decl env pos) (fn.run env r func ⟨pos + 1, last⟩) := by
  by_cases hif : fn = .if_
  · subst hif
    exact (if_canonical (hloop func)).pre fun _ _ h => h.1.1
  by_cases hcall : fn = .call
  · subst hcall
    exact call_canonical hfn hfunc
  exact (leaf_pushing hfn hif hcall).post fun _ _ _ h => h.1

/-- One round of a dispatch loop and the rest, when calls and further rounds keep the slots and the
blocks. -/
theorem dispatch_canonical (hfunc : ∀ f, EndsCanonical decl env (Entered decl f) (r.func f))
    (hloop : ∀ f b, KeepsCanonical decl env (r.loop f b)) :
    KeepsCanonical decl env (dispatchLoop env r func body) := by
  rw [dispatchLoop]
  by_cases hlt : body.pos < body.last
  · rw [if_pos hlt, fwStrGet8_of_lt hlt]
    refine Given.get_bind fun s₀ => Given.emit_bind (R := AtInstr decl env body.pos) ?_ ?_
    · rintro g s ⟨hs, rfl⟩ hkeeps
      exact ⟨⟨hs.congr rfl rfl rfl, rfl⟩, hkeeps⟩
    · cases hi : fwGetInstr (env.mem body.pos) with
      | none => exact Given.pure fun _ _ h => h.1.1
      | some instr =>
        cases hf : instr.run with
        | none =>
          simp only [hf]
          exact Given.halt fun _ _ h => h.1.1.made
        | some fn =>
          simp only [hf]
          have hfn : handlerAt env.mem body.pos = some fn := by rw [handlerAt, hi]; exact hf
          exact Given.bind (run_canonical hfn hfunc hloop) fun res => hloop func _
  · rw [if_neg hlt]
    exact Given.pure fun _ _ h => h

/-- Loops keep the slots and the blocks, and so do functions, by induction on the number of steps. A
function asks for arguments that fit, which the step before a call has looked at. -/
theorem interp_canonical (decl : FwModuleFunc → ℕ → UInt8) (env : Env) (n : ℕ) :
    (∀ f, EndsCanonical decl env (Entered decl f) ((interp env n).func f)) ∧
      ∀ f b, KeepsCanonical decl env ((interp env n).loop f b) := by
  refine interp_induction (p := fun r => (∀ f, EndsCanonical decl env (Entered decl f) (r.func f)) ∧
    ∀ f b, KeepsCanonical decl env (r.loop f b)) ?_ ?_ n
  · exact ⟨fun _ => Given.halt fun _ _ h => h.1.made,
      fun _ _ => Given.halt fun _ _ h => h.made⟩
  · rintro r ⟨hfunc, hloop⟩
    exact ⟨fun _ => func_canonical hloop, fun _ _ => dispatch_canonical hfunc hloop⟩

/-! ## The arguments

`atoi` gives an `int`, which is made a `uint64_t` with its sign. What an argument that is no number
gives is for `atoi` to say. -/

/-- The slot of an argument: an `i32` with the value that `atoi` has for it. -/
def argSlot (arg : List UInt8) : Slot := .plain fwI32 (atoi arg).toInt64.toUInt64

/-- Converted with its sign, an `int` is below 2^32 when it is not negative. -/
theorem toUInt64_lt_iff (x : Int32) : x.toInt64.toUInt64.toNat < 2 ^ 32 ↔ 0 ≤ x := by
  rw [Int32.le_iff_toInt_le]
  have hlt : x.toInt < 2 ^ 31 := x.toInt_lt
  have hle : -2 ^ 31 ≤ x.toInt := x.le_toInt
  have hval : x.toInt64.toInt = _ := BitVec.toInt_eq_toNat_cond x.toInt64.toBitVec
  rw [Int32.toInt_toInt64] at hval
  change x.toInt64.toBitVec.toNat < 2 ^ 32 ↔ 0 ≤ x.toInt
  split at hval <;> omega

/-- With room for them the arguments are pushed, and are the interpreter's own. They are the slots
that `fw_module_run_func` pushes before anything is fetched. -/
theorem pushArgs_apply (decl : FwModuleFunc → ℕ → UInt8) (env : Env) :
    ∀ (args : List (List UInt8)) (s : Machine), s.ctx.pos + args.length ≤ s.ctx.fin →
      ∃ l s', fwPushArgs args s = ⟨l, .ok (⟨⟩, s')⟩ ∧ s'.heap = s.heap ∧
        s'.ctx.pos = s.ctx.pos + args.length ∧ (∀ i < s.ctx.pos, s'.ctx.stack i = s.ctx.stack i) ∧
        (∀ i < args.length, s'.ctx.stack (s.ctx.pos + i) ∈ args.map argSlot) ∧
        ∀ g : I32Log, g.pusher = .args → (i32Monitor decl env).after g l =
          { g with made := g.made ++ args.map argSlot }
  | [], s, _ => ⟨[], s, rfl, rfl, rfl, fun _ _ => rfl, fun i hi => absurd hi (Nat.not_lt_zero i),
      fun g _ => by simp⟩
  | arg :: args, s, hroom => by
    rw [List.length_cons] at hroom
    have hpush := fwPush_of_lt (s := s) (by omega) (argSlot arg)
    have hself : (s.ctx.push (argSlot arg)).stack s.ctx.pos = argSlot arg := Function.update_self ..
    obtain ⟨l, s', hrest, hheap, hpos, hbelow, hargs, hmade⟩ := pushArgs_apply decl env args
      { s with ctx := s.ctx.push (argSlot arg) } (by
        change s.ctx.pos + 1 + args.length ≤ s.ctx.fin
        omega)
    change s'.ctx.pos = s.ctx.pos + 1 + args.length at hpos
    change ∀ i < s.ctx.pos + 1, _ at hbelow
    change ∀ i < args.length, s'.ctx.stack (s.ctx.pos + 1 + i) ∈ _ at hargs
    refine ⟨.slot s.ctx.pos s.ctx (s.ctx.push (argSlot arg)) :: l, s',
      (bind_eq hpush).trans (by rw [hrest]; rfl), hheap, ?_, fun i hi => ?_, fun i hi => ?_,
      fun g hg => ?_⟩
    · rw [hpos, List.length_cons, Nat.add_assoc, Nat.add_comm 1]
    · rw [hbelow i (Nat.lt_succ_of_lt hi)]
      exact Function.update_of_ne hi.ne ..
    · rw [List.map_cons, List.mem_cons]
      cases i with
      | zero =>
        rw [Nat.add_zero, hbelow _ (Nat.lt_succ_self _)]
        exact .inl hself
      | succ i =>
        rw [Nat.add_comm i, ← Nat.add_assoc]
        exact .inr (hargs i (Nat.lt_of_succ_lt_succ hi))
    · have hown : g.own decl env = true := by rw [I32Log.own, hg]
      have hstep : (i32Monitor decl env).step g (.slot s.ctx.pos s.ctx
          (s.ctx.push (argSlot arg))) = { g with made := g.made ++ [argSlot arg] } := by
        simp only [i32Monitor, I32Log.step, hself]
        exact if_pos ⟨rfl, hown, rfl⟩
      rw [Monitor.after_cons, hstep, hmade _ (by exact hg), List.append_assoc]
      rfl

/-! ## The comparisons

What slots below 2^32 are good for. -/

/-- A comparison of 32-bit integers: the low halves of the two top slots are compared, and the
outcome is pushed. -/
def compare32 (f : UInt32 → UInt32 → Bool) (body : FwStr) : Run (Status × FwStr) := do
  let c2 ← fwPop false
  let c1 ← fwPop false
  fwPush (.ofBool (f c1.val.toUInt32 c2.val.toUInt32))
  pure (.ok, body)

/-- A test for the 32-bit integer 0, on the low half of the top slot. -/
def eqz32 (body : FwStr) : Run (Status × FwStr) := do
  let c1 ← fwPop false
  fwPush (.ofBool (c1.val.toUInt32 = 0))
  pure (.ok, body)

/-- Every slot is tagged `FW_I32` and below 2^32, and the comparisons of such slots are those of
32-bit integers: two of them in place of the top of any stack are compared as their low 32 bits are.
-/
structure I32Canonical (made : List Slot) : Prop where
  /-- below 2^32 -/
  below : ∀ st ∈ made, st.type = fwI32 ∧ st.val.toNat < 2 ^ 32
  /-- `i32.eq` -/
  eq : ∀ s body, s.ctx.stack (s.ctx.pos - 1) ∈ made → s.ctx.stack (s.ctx.pos - 2) ∈ made →
    fwInstrRunI32Eq body s = compare32 (· == ·) body s
  /-- `i32.ne` -/
  ne : ∀ s body, s.ctx.stack (s.ctx.pos - 1) ∈ made → s.ctx.stack (s.ctx.pos - 2) ∈ made →
    fwInstrRunI32Ne body s = compare32 (· != ·) body s
  /-- `i32.eqz` -/
  eqz : ∀ s body, s.ctx.stack (s.ctx.pos - 1) ∈ made → fwInstrRunI32Eqz body s = eqz32 body s

/-- What follows a pop depends on the slot and the rest of the stack. -/
theorem pop_bind_congr {α : Type} {f f' : Slot → Run α} {s : Machine}
    (h : f (s.ctx.stack (s.ctx.pos - 1)) { s with ctx := s.ctx.pop } =
      f' (s.ctx.stack (s.ctx.pos - 1)) { s with ctx := s.ctx.pop }) :
    (fwPop false >>= f) s = (fwPop false >>= f') s := by
  by_cases hpos : s.ctx.pos = 0
  · have hpop := congrArg Outcome.res (fwPop_of_eq hpos false)
    rw [bind_of_error hpop, bind_of_error hpop]
  · rw [bind_eq (fwPop_of_ne hpos), bind_eq (fwPop_of_ne hpos), h]

/-- Below 2^32 the low 32 bits are all there is, so they tell two values apart. -/
theorem toUInt32_inj {x y : UInt64} (hx : x.toNat < 2 ^ 32) (hy : y.toNat < 2 ^ 32) :
    x.toUInt32 = y.toUInt32 ↔ x = y := by
  rw [← UInt32.toNat_inj, ← UInt64.toNat_inj, UInt64.toNat_toUInt32, UInt64.toNat_toUInt32,
    Nat.mod_eq_of_lt hx, Nat.mod_eq_of_lt hy]

/-- Slots below 2^32 compare as 32-bit integers, whatever the stack is that they are on. -/
theorem i32Canonical_of_below {made : List Slot}
    (h : ∀ st ∈ made, st.type = fwI32 ∧ st.val.toNat < 2 ^ 32) : I32Canonical made where
  below := h
  eq s body h2 h1 := by
    refine pop_bind_congr (pop_bind_congr ?_)
    simp only [Ctx.pop, Nat.sub_sub, beq_eq_decide, toUInt32_inj (h _ h1).2 (h _ h2).2,
      eq_comm (a := (s.ctx.stack (s.ctx.pos - 1)).val)]
  ne s body h2 h1 := by
    refine pop_bind_congr (pop_bind_congr ?_)
    simp only [Ctx.pop, Nat.sub_sub, (h _ h1).1, (h _ h2).1, ne_eq, not_true_eq_false, or_self,
      if_false, bne, beq_eq_decide, toUInt32_inj (h _ h1).2 (h _ h2).2, decide_not]
  eqz s body h1 := by
    have hzero : decide ((s.ctx.stack (s.ctx.pos - 1)).val.toUInt32 = 0) =
        decide ((s.ctx.stack (s.ctx.pos - 1)).val = 0) :=
      decide_eq_decide.mpr (toUInt32_inj (h _ h1).2 (y := 0) (by decide))
    exact pop_bind_congr (congrArg (fun b => (fwPush (.ofBool b) >>= fun _ =>
      pure (Status.ok, body) : Run (Status × FwStr)) { s with ctx := s.ctx.pop }) hzero.symm)

/-! ## Runs

A run from outside starts by pushing its arguments, and it is there that a negative one gets into a
slot. -/

/-- The `FW_I32` slots that the interpreter itself pushes in a run. -/
def madeBy (decl : FwModuleFunc → ℕ → UInt8) (env : Env) (l : List Event) : List Slot :=
  ((i32Monitor decl env).after .start l).made

/-- What was pushed stays pushed: nothing is taken off the list. -/
theorem made_subset (g : I32Log) (l : List Event) :
    g.made ⊆ ((i32Monitor decl env).after g l).made := by
  induction l generalizing g with
  | nil => exact List.Subset.refl _
  | cons e l ih =>
    refine List.Subset.trans ?_ (ih _)
    cases e with
    | slot i before after =>
      simp only [i32Monitor, I32Log.step]
      split
      · exact List.subset_append_left ..
      · exact List.Subset.refl _
    | limit | fetch | enter | leave | ret | alloc | free | uninit | host | errLabel | err =>
      exact List.Subset.refl _

/-- A new stack has room for the arguments of a function. -/
theorem room_start {stack : ℕ → Slot} {n : ℕ} (hn : n < 256) :
    (fwModuleContextNew stack).ctx.pos + n ≤ (fwModuleContextNew stack).ctx.fin := by
  change 0 + n ≤ 4096
  omega

/-- A run starts by pushing its arguments. -/
theorem pushArgs_start {stack : ℕ → Slot} {args : List (List UInt8)} {H : Halt → I32Log → Prop}
    (hlen : args.length < 256) :
    Given (i32Monitor decl env) (fun g s => g = .start ∧ s = fwModuleContextNew stack)
      (fwPushArgs args) (fun _ g s => g = { I32Log.start with made := args.map argSlot } ∧
        s.heap = [] ∧ s.ctx.pos = args.length ∧
        ∀ i < args.length, s.ctx.stack i ∈ args.map argSlot) H := by
  rintro g s ⟨rfl, rfl⟩ -
  obtain ⟨l, s', hrun, hheap, hpos, -, hargs, hmade⟩ :=
    pushArgs_apply decl env args (fwModuleContextNew stack) (room_start hlen)
  change s'.ctx.pos = 0 + args.length at hpos
  change ∀ i < args.length, s'.ctx.stack (0 + i) ∈ _ at hargs
  rw [hrun, hmade _ rfl]
  simp only [Nat.zero_add] at hpos hargs
  exact ⟨rfl, hheap, hpos, hargs⟩

section

variable {n : ℕ} {args : List (List UInt8)} {rets : Bool} {stack : ℕ → Slot}

/-- Without a negative argument the function is entered as it has to be. -/
theorem entered_of_args (hlen : args.length = func.functype.paramCnt.toNat)
    (hargs : ∀ arg ∈ args, 0 ≤ atoi arg) {s : Machine} (hheap : s.heap = [])
    (hpos : s.ctx.pos = args.length)
    (hstack : ∀ i < args.length, s.ctx.stack i ∈ args.map argSlot) :
    Entered decl func { I32Log.start with made := args.map argSlot } s := by
  refine ⟨⟨fun st hst => ?_, rfl, by rw [hheap]; rfl, fun id f b hf => by cases hf⟩, fun _ =>
    ⟨fun _ => .inr hheap, fun i hi _ => .inl (hstack _ (by omega))⟩⟩
  obtain ⟨arg, harg, rfl⟩ := List.mem_map.mp hst
  exact ⟨rfl, (toUInt64_lt_iff _).mpr (hargs arg harg)⟩

/-- Without a negative argument the slots that a run pushes fit. -/
theorem runFunc_fits
    (hargs : ∀ arg ∈ args.take func.functype.paramCnt.toNat, 0 ≤ atoi arg) :
    Given (i32Monitor decl env) (fun g s => g = .start ∧ s = fwModuleContextNew stack)
      (fwModuleRunFunc env n func args rets) (fun _ g _ => g.MadeFit) EndsFit := by
  refine Given.ite (fun _ => Given.pure ?_) fun hcnt => Given.bind (R := fun _ => Entered decl func)
    ((pushArgs_start ?_).post ?_) fun _ =>
      Given.bind ((interp_canonical decl env n).1 func) fun status => ?_
  · rintro g s ⟨rfl, -⟩ st hst
    cases hst
  · exact Nat.lt_of_le_of_lt (List.length_take_le ..) func.functype.paramCnt.toNat_lt
  · rintro _ g s ⟨rfl, hheap, hpos, hstack⟩
    exact entered_of_args (List.length_take_of_le (Nat.not_lt.mp hcnt)) hargs hheap hpos hstack
  · cases status with
    | err => exact Given.pure fun _ _ h => h.made
    | ok =>
      exact Given.ite (fun _ => (HeapKept.pop false).canonical.bind fun _ =>
        Given.pure fun _ _ h => h.made) fun _ => Given.pure fun _ _ h => h.made

/-- The arguments are slots that a run pushes. -/
theorem runFunc_args (hcnt : func.functype.paramCnt.toNat ≤ args.length) :
    (args.take func.functype.paramCnt.toNat).map argSlot ⊆
      madeBy decl env (fwModuleRunFunc env n func args rets (fwModuleContextNew stack)).log := by
  have hlen : (args.take func.functype.paramCnt.toNat).length < 256 :=
    Nat.lt_of_le_of_lt (List.length_take_le ..) func.functype.paramCnt.toNat_lt
  obtain ⟨l, s', hrun, -, -, -, -, hmade⟩ := pushArgs_apply decl env
    (args.take func.functype.paramCnt.toNat) (fwModuleContextNew stack) (room_start hlen)
  rw [fwModuleRunFunc, if_neg (Nat.not_lt.mpr hcnt), bind_eq hrun, madeBy, Monitor.after_append,
    hmade _ rfl]
  exact made_subset { I32Log.start with made := (args.take _).map argSlot } _

/-- In a run where no step stores another value as an `i32` (`hsteps`), the `i32` slots of the
interpreter's own are below 2^32, and compare as 32-bit integers, if and only if no argument is
negative. The arguments are those of the parameters: with fewer of them than parameters nothing is
run, and those behind are not looked at. -/
theorem i32_canonical_iff {decl : FwModuleFunc → ℕ → UInt8}
    (hsteps : (i32Monitor decl env).Accepts .start
      (fwModuleRunFunc env n func args rets (fwModuleContextNew stack)).log) :
    I32Canonical (madeBy decl env
        (fwModuleRunFunc env n func args rets (fwModuleContextNew stack)).log) ↔
      (func.functype.paramCnt.toNat ≤ args.length →
        ∀ arg ∈ args.take func.functype.paramCnt.toNat, 0 ≤ atoi arg) := by
  refine ⟨fun h hcnt arg harg => ?_, fun hargs => i32Canonical_of_below ?_⟩
  · exact (toUInt64_lt_iff _).mp
      (h.below _ (runFunc_args hcnt (List.mem_map_of_mem harg))).2
  · by_cases hcnt : func.functype.paramCnt.toNat ≤ args.length
    · have hends := runFunc_fits (hargs hcnt) .start _ ⟨rfl, rfl⟩ hsteps
      rcases hr : (fwModuleRunFunc env n func args rets (fwModuleContextNew stack)).res with
          e | ⟨a, s'⟩ <;> rw [hr] at hends
      · exact hends
      · exact hends
    · -- too few arguments, nothing is run
      rw [fwModuleRunFunc, if_pos (Nat.not_le.mp hcnt)]
      exact fun st hst => by cases hst

end

end

/-! ### A negative argument -/

/-- A function that returns its parameter, whose type is `i32`. -/
def sameFunc : FwModuleFunc := ⟨0, ⟨1, 1, [fwI32, fwI32]⟩, ⟨0, 3⟩, none, .init⟩

/-- `local.get 0` -/
def sameEnv : Env := zeroEnv (memOf [0x20, 0x00, 0x0b]) []

/-- A new context with an empty stack. -/
def newCtx : Ctx := (fwModuleContextNew fun _ => .plain 0 0).ctx

/-- The run with the argument 7. -/
theorem i32_canonical_same :
    I32Canonical (madeBy (fun _ _ => fwI32) sameEnv (fwModuleRunFunc sameEnv 5 sameFunc [[0x37]]
      true (fwModuleContextNew fun _ => .plain 0 0)).log) := by
  refine (i32_canonical_iff ?_).mpr fun _ => by decide
  obtain ⟨c₁, c₂, c₃, c₄, hlog, hlocals⟩ : ∃ c₁ c₂ c₃ c₄,
      (fwModuleRunFunc sameEnv 5 sameFunc [[0x37]] true
        (fwModuleContextNew fun _ => .plain 0 0)).log =
        [.slot 0 newCtx (newCtx.push (argSlot [0x37])), .alloc 0,
          .slot 0 (newCtx.push (argSlot [0x37])) (newCtx.push (argSlot [0x37])), .enter sameFunc 1,
          .fetch 0 c₁, .slot 1 c₁ c₂, .fetch 2 c₂, .free 0, .leave, .slot 1 c₃ c₄] ∧
        c₁.locals = some 0 := by
    exact ⟨_, _, _, _, rfl, rfl⟩
  rw [hlog]
  refine ⟨trivial, trivial, trivial, trivial, ?_, trivial, trivial, trivial, trivial, trivial,
    trivial⟩
  -- the block that `local.get` reads is that of the function
  intro func hfunc owner howner htype
  cases hfunc
  rw [hlocals] at howner
  cases howner
  exact htype

/-- A function that compares its parameter with `i32.const -1`. -/
def minusOneFunc : FwModuleFunc := ⟨0, ⟨1, 1, [fwI32, fwI32]⟩, ⟨0, 10⟩, none, .init⟩

/-- `local.get 0`, `i32.const -1`, `i32.eq` -/
def minusOneEnv : Env :=
  zeroEnv (memOf [0x20, 0x00, 0x41, 0xff, 0xff, 0xff, 0xff, 0x7f, 0x46, 0x0b]) []

/-- The run with the argument -1. -/
def minusOneRun : Outcome Event Halt Machine (Status × Option UInt32) :=
  fwModuleRunFunc minusOneEnv 7 minusOneFunc [[0x2d, 0x31]] true
    (fwModuleContextNew fun _ => .plain 0 0)

/-- The argument -1 and `i32.const -1` are the same 32-bit integer, and are not equal. -/
theorem i32_not_canonical :
    (∃ s, minusOneRun.res = .ok ((.ok, some 0), s)) ∧
      (∃ st ∈ madeBy (fun _ _ => fwI32) minusOneEnv minusOneRun.log,
        ∃ st' ∈ madeBy (fun _ _ => fwI32) minusOneEnv minusOneRun.log,
          st.val.toUInt32 = st'.val.toUInt32 ∧ st.val ≠ st'.val) ∧
      ¬ I32Canonical (madeBy (fun _ _ => fwI32) minusOneEnv minusOneRun.log) := by
  have hmade : madeBy (fun _ _ => fwI32) minusOneEnv minusOneRun.log =
      [argSlot [0x2d, 0x31], argSlot [0x2d, 0x31], .plain fwI32 0xffffffff, .ofBool false] := rfl
  rw [hmade]
  refine ⟨⟨_, rfl⟩, ⟨_, .head _, _, .tail _ (.tail _ (.head _)), rfl, by decide⟩, fun h => ?_⟩
  exact absurd (h.below _ (.head _)).2 (by decide)

end FastWasm
