import FastWasm.Footprint

/-!
# What every handler preserves

An invariant of machines and monitor states that the stack macros, the accesses to the running
function's locals and the events of the handlers keep is kept by every handler. This is proved once,
for any monitor, and cited by name for each invariant.

What an invariant has to do is a structure (`Stable`), one field for each way in which a handler
touches the machine. The handlers of the source are then gone through a single time: those that only
use the stack and the locals (`Stable.leaf`), `if`, which calls back into a dispatch loop, `call`,
which calls back into a function, and `return`, which is left to the user, since most invariants
have something to say about it. Over the handlers stand one rule for a dispatch loop and one for a
function, and the induction on the step bound is made where the invariant is known.

The last part does the same for invariants that only look at the frame of the context: the handlers
leave it alone, and entering and leaving a function are the two places that matter.
-/

namespace FastWasm

open Logged

/-! ## Keeping an invariant

An invariant of runs is about the state of a monitor and the machine. Most handlers do a few things
to the machine that most invariants do not mind, so it is enough to say once that these things are
kept. -/

section Keeps

variable {γ : Type} {M : Monitor γ Event} {I : γ → Machine → Prop} {H : Halt → γ → Prop}
  {α β : Type}

/-- From `I` the monitor allows every event of `m`, which returns in `I` or halts in `H`. It is a
triple with one assertion before and behind. -/
def Keeps (M : Monitor γ Event) (I : γ → Machine → Prop) (H : Halt → γ → Prop) (m : Run α) : Prop :=
  Triple M I m (fun _ => I) H

theorem Keeps.pure (a : α) : Keeps M I H (pure a : Run α) :=
  Triple.pure fun _ _ hs => hs

theorem Keeps.bind {m : Run α} {f : α → Run β} (hm : Keeps M I H m) (hf : ∀ a, Keeps M I H (f a)) :
    Keeps M I H (m >>= f) :=
  Triple.bind hm hf

theorem Keeps.get_bind {f : Machine → Run β} (hf : ∀ s, Keeps M I H (f s)) :
    Keeps M I H (get >>= f) :=
  Triple.get_bind fun s₀ => (hf s₀).pre fun _ _ hs => hs.1

theorem Keeps.ite {c : Prop} [Decidable c] {m m' : Run α} (h : c → Keeps M I H m)
    (h' : ¬ c → Keeps M I H m') : Keeps M I H (if c then m else m') := by
  by_cases hc : c
  · rw [if_pos hc]
    exact h hc
  · rw [if_neg hc]
    exact h' hc

end Keeps

/-! ## Rules for the dispatch loop and for functions

What is put together from the steps, in the order of the source. -/

section Rules

variable {γ : Type} {M : Monitor γ Event} {P I : γ → Machine → Prop} {H : Halt → γ → Prop}
  {env : Env} {r : Interp} {func : FwModuleFunc} {body : FwStr}

/-- A dispatch loop is at the end of its window, or fetches an opcode and goes on with a handler and
the rest of the loop. An opcode without a row and one without a handler end it. -/
theorem dispatch_rule {Q : LoopExit → γ → Machine → Prop}
    (hend : ¬ body.pos < body.last → ∀ g s, P g s → Q (.done body) g s)
    (hfetch : body.pos < body.last → ∀ g s, P g s →
      M.ok g (.fetch body.pos s.ctx) ∧ I (M.step g (.fetch body.pos s.ctx)) s)
    (hbad : ∀ g s, I g s → Q .badOpcode g s)
    (hnull : ∀ g s, I g s → H (.fault .nullHandler) g)
    (hrun : body.pos < body.last → ∀ instr fn, fwGetInstr (env.mem body.pos) = some instr →
      instr.run = some fn → Triple M I (do
        let (_, next) ← fn.run env r func ⟨body.pos + 1, body.last⟩
        r.loop func next) Q H) :
    Triple M P (dispatchLoop env r func body) Q H := by
  rw [dispatchLoop]
  by_cases hlt : body.pos < body.last
  · rw [if_pos hlt, fwStrGet8_of_lt hlt]
    refine Triple.get_bind fun s₀ => Triple.emit_bind (R := I) ?_ ?_
    · rintro g s ⟨hs, rfl⟩
      exact hfetch hlt g s hs
    · cases hi : fwGetInstr (env.mem body.pos) with
      | none => exact Triple.pure hbad
      | some instr =>
        cases hf : instr.run with
        | none =>
          simp only [hf]
          exact Triple.halt hnull
        | some fn =>
          simp only [hf]
          exact hrun hlt instr fn hi hf
  · rw [if_neg hlt]
    exact Triple.pure (hend hlt)

/-- A function is a host function, or it is entered, run and left. The three parts are handed to the
rule as triples, with the loop over the body in the middle. -/
theorem func_rule {Q : Status → γ → Machine → Prop}
    (hhost : ∀ addr, Triple M P (fwModuleRunHostFunc env func addr) Q H)
    (hwasm : func.hostAddr = none → Triple M P (do
      let saveLocals ← fwEnterFunc env func
      let exit ← r.loop func func.body
      fwLeaveFunc saveLocals exit) Q H) :
    Triple M P (_fwModuleRunFunc env r func) Q H := by
  cases hh : func.hostAddr with
  | some addr =>
    simp only [_fwModuleRunFunc, hh]
    exact hhost addr
  | none =>
    simp only [_fwModuleRunFunc, hh]
    exact hwasm hh

end Rules

/-- What an invariant has to do for the handlers to keep it: each of the operations that they are
made of keeps it, and no event of theirs is forbidden in it. -/
structure Stable {γ : Type} (M : Monitor γ Event) (I : γ → Machine → Prop)
    (H : Halt → γ → Prop) : Prop where
  /-- `FW_PUSH` -/
  push : ∀ st, Keeps M I H (fwPush st)
  /-- the first statement of `FW_PUSH` -/
  room : Keeps M I H fwPushRoom
  /-- `FW_POP` -/
  pop : ∀ peek, Keeps M I H (fwPop peek)
  /-- a read of a local -/
  read : ∀ idx, Keeps M I H (fwLocalsRead idx)
  /-- a write to a local of the running function -/
  write : ∀ p idx val, Triple M (fun g s => I g s ∧ s.ctx.locals = p) (fwLocalsWrite p idx val)
    (fun _ => I) H
  /-- a host call is counted -/
  tick : Keeps M I H nextTick
  /-- a host call -/
  host : ∀ addr args, Keeps M I H (emit (.host addr args))
  /-- an error path -/
  err : Keeps M I H (emit .err)
  /-- undefined behaviour -/
  fault : ∀ f g s, I g s → H (.fault f) g
  /-- a read that never ends -/
  hang : ∀ g s, I g s → H .hang g

namespace Stable

variable {γ : Type} {M : Monitor γ Event} {I : γ → Machine → Prop} {H : Halt → γ → Prop}
  {env : Env} {r : Interp} {func : FwModuleFunc} {body : FwStr}

/-- A handler that returns `FW_ERR`, behind the event of the error. -/
theorem error (h : Stable M I H) {α : Type} (a : α) :
    Keeps M I H (do emit .err; pure a : Run α) :=
  h.err.bind fun _ => .pure a

theorem halt_fault (h : Stable M I H) {α : Type} (f : Fault) :
    Keeps M I H (halt (.fault f) : Run α) :=
  Triple.halt (h.fault f)

/-- A write through `ctx->locals`, which is a fault when there is no block. -/
theorem writeLocal (h : Stable M I H) (idx : ℕ) (val : UInt64) :
    Keeps M I H (do let s ← get; fwLocalsWrite s.ctx.locals idx val; pure (Status.ok, body)) :=
  Triple.get_bind fun s₀ => Triple.bind
    ((h.write s₀.ctx.locals idx val).pre fun _ _ hs => ⟨hs.1, by rw [hs.2]⟩) fun _ => Keeps.pure _

theorem readLeb (h : Stable M I H) {maxbit : ℕ} {k : UInt64 → FwStr → Run (Status × FwStr)}
    (hk : ∀ val body', fwStrLebGetu env.mem body maxbit = .got val body' →
      Keeps M I H (k val body')) :
    Keeps M I H (readLeb env maxbit body k) := by
  rw [FastWasm.readLeb]
  cases hr : fwStrLebGetu env.mem body maxbit with
  | hang => exact Triple.halt h.hang
  | strErr => exact h.error _
  | got val body' => exact hk val body' hr

/-! ## Host functions

Pops and pushes around one call. -/

theorem popArgs (h : Stable M I H) (ft : FwModuleType) :
    ∀ (n : ℕ) (args : List UInt64), Keeps M I H (fwPopArgs ft n args)
  | 0, args => .pure _
  | n + 1, args => by
    rw [fwPopArgs]
    refine (h.pop false).bind fun st => ?_
    cases ft.val[n]? with
    | none => exact h.halt_fault _
    | some type => exact .ite (fun _ => h.error _) fun _ => h.popArgs ft n _

theorem pushRets (h : Stable M I H) (ft : FwModuleType) (rets : ℕ → UInt64) :
    ∀ (n i : ℕ), Keeps M I H (fwPushRets ft rets n i)
  | 0, i => .pure _
  | n + 1, i => by
    rw [fwPushRets]
    cases ft.val[ft.paramCnt.toNat]? with
    | none => exact h.halt_fault _
    | some type => exact (h.push _).bind fun _ => h.pushRets ft rets n (i + 1)

theorem callHost (h : Stable M I H) (n addr retCnt : ℕ) (argv : List UInt64) :
    Keeps M I H (_fwModuleRunHostFunc env n addr retCnt argv) := by
  rw [_fwModuleRunHostFunc]
  cases fwHostArgs argv with
  | none => exact .pure _
  | some args => exact (h.host addr args).bind fun _ => .pure _

/-- A host function, run to its end, whatever the host answers. -/
theorem hostFunc (h : Stable M I H) (addr : ℕ) :
    Keeps M I H (fwModuleRunHostFunc env func addr) := by
  refine (h.popArgs _ _ _).bind fun args => ?_
  cases args with
  | none => exact .pure _
  | some args =>
    refine h.tick.bind fun n => ?_
    refine (h.callHost _ _ _ _).bind fun rets => ?_
    cases rets with
    | none => exact h.error _
    | some rets => exact (h.pushRets _ _ _ _).bind fun _ => .pure _

/-! ## Handlers

All of them but `return`, which moves slots and the cursor in a way of its own. -/

/-- A call, when the callee keeps the invariant, whatever function it is. -/
theorem call (h : Stable M I H) (hfunc : ∀ f ∈ env.funcs, Keeps M I H (r.func f)) :
    Keeps M I H (fwInstrRunCall env r body) := by
  refine h.readLeb fun idx body' _ => ?_
  cases hf : env.funcs[idx.toUInt32.toNat]? with
  | none => exact h.halt_fault _
  | some f =>
    refine (hfunc f (List.mem_of_getElem? hf)).bind fun status => ?_
    cases status with
    | err => exact h.error _
    | ok => exact .pure _

/-- What the loop over the branch of an `if` has to leave behind: what is wanted after the `if`,
with the cursor of a `return` in the branch or else behind the `end`, and the invariant at an error.
The handler of `if` runs the branch on a copy of the cursor, so that a branch that has left its
window is told apart by its position. -/
def BranchExit (I : γ → Machine → Prop) (Q : Status × FwStr → γ → Machine → Prop) (body : FwStr)
    (fin : ℕ) : LoopExit → γ → Machine → Prop
  | .done b => Q (.ok, ⟨if b.pos > b.last then b.pos else fin, body.last⟩)
  | .badOpcode | .strErr => I

/-- An `if`, with what the loop over its branch establishes. The invariant may be a weaker one after
the branch, which has to give the postcondition at every error. A body in which a call was made is
such a case: what was known of the frame before is gone behind it. -/
theorem if_weaken {I' : γ → Machine → Prop} (h : Stable M I H) (h' : Stable M I' H)
    (hle : ∀ g s, I g s → I' g s) {Q : Status × FwStr → γ → Machine → Prop}
    (hread : fwStrLebGetu env.mem body 32 = .strErr → ∀ g s, I' g s → Q (.err, body) g s)
    (herr : ∀ val body', fwStrLebGetu env.mem body 32 = .got val body' →
      ∀ g s, I' g s → Q (.err, body') g s)
    (hbranch : ∀ val body' blk els fin, fwStrLebGetu env.mem body 32 = .got val body' →
      fwInstrFindBlk func.blks body'.pos = some blk → blk.els = some els → blk.fin = some fin →
      ∀ cond : Slot,
        Triple M I (r.loop func (if cond.val ≠ 0 then ⟨body'.pos, els - 1⟩ else ⟨els, fin⟩))
          (BranchExit I' Q body' fin) H) :
    Triple M I (fwInstrRunIf env r func body) Q H := by
  rw [fwInstrRunIf, FastWasm.readLeb]
  cases hr : fwStrLebGetu env.mem body 32 with
  | hang => exact Triple.halt h.hang
  | strErr =>
    exact Triple.bind h.err fun _ => Triple.pure fun g s hs => hread hr g s (hle g s hs)
  | got val body' =>
    have herror' : Triple M I' (do emit .err; pure (Status.err, body') : Run _) Q H :=
      Triple.bind h'.err fun _ => Triple.pure (herr val body' hr)
    have herror := herror'.pre hle
    cases hfind : fwInstrFindBlk func.blks body'.pos with
    | none =>
      simp only [hfind]
      exact herror
    | some blk =>
      simp only [hfind]
      refine Triple.bind (h.pop false) fun cond => ?_
      by_cases htype : cond.type ≠ fwI32
      · rw [if_pos htype]
        exact herror
      rw [if_neg htype, if_neg (not_not.mpr (start_of_find hfind))]
      cases hels : blk.els with
      | none => exact Triple.halt (h.fault _)
      | some els =>
        cases hfin : blk.fin with
        | none => exact Triple.halt (h.fault _)
        | some fin =>
          refine Triple.bind (hbranch val body' blk els fin hr hfind hels hfin cond) fun exit => ?_
          cases exit with
          | done b =>
            simp only [BranchExit]
            by_cases hpos : b.pos > b.last
            · simp only [if_pos hpos]
              exact Triple.pure fun _ _ hq => hq
            · simp only [if_neg hpos]
              exact Triple.pure fun _ _ hq => hq
          | badOpcode => exact herror'
          | strErr => exact Triple.pure (herr val body' hr)

/-- An `if`, with what the loop over its branch establishes for a postcondition that the invariant
gives at every error. -/
theorem if_branch (h : Stable M I H) {Q : Status × FwStr → γ → Machine → Prop}
    (hread : fwStrLebGetu env.mem body 32 = .strErr → ∀ g s, I g s → Q (.err, body) g s)
    (herr : ∀ val body', fwStrLebGetu env.mem body 32 = .got val body' →
      ∀ g s, I g s → Q (.err, body') g s)
    (hbranch : ∀ val body' blk els fin, fwStrLebGetu env.mem body 32 = .got val body' →
      fwInstrFindBlk func.blks body'.pos = some blk → blk.els = some els → blk.fin = some fin →
      ∀ cond : Slot,
        Triple M I (r.loop func (if cond.val ≠ 0 then ⟨body'.pos, els - 1⟩ else ⟨els, fin⟩))
          (BranchExit I Q body' fin) H) :
    Triple M I (fwInstrRunIf env r func body) Q H :=
  h.if_weaken h (fun _ _ hI => hI) hread herr hbranch

/-- An `if`, when the loop over its branch keeps the invariant. -/
theorem if_ (h : Stable M I H) (hloop : ∀ body, Keeps M I H (r.loop func body)) :
    Keeps M I H (fwInstrRunIf env r func body) := by
  refine h.if_branch (fun _ _ _ hI => hI) (fun _ _ _ _ _ hI => hI)
    fun _ _ _ _ _ _ _ _ _ _ => (hloop _).post fun exit _ _ hI => ?_
  cases exit with
  | done | badOpcode | strErr => exact hI

/-- The handlers that do not call back, `return` apart, by cases. Each of them is a chain of reads,
pops and pushes, and what is stable under these is stable under the chain. -/
theorem leaf (h : Stable M I H) {fn : RunFn} (hif : fn ≠ .if_) (hcall : fn ≠ .call)
    (hreturn : fn ≠ .return_) : Keeps M I H (fn.run env r func body) := by
  cases fn with
  | block =>
    refine h.readLeb fun resType body' _ => ?_
    cases fwInstrFindBlk func.blks body'.pos with
    | none => exact h.error _
    | some blk => exact (h.push _).bind fun _ => .pure _
  | loop => exact h.readLeb fun resType body' _ => (h.push _).bind fun _ => .pure _
  | if_ => exact absurd rfl hif
  | else_ =>
    refine (h.pop false).bind fun st => .ite (fun _ => h.error _) fun _ => ?_
    cases st.priv.bind (·.fin) with
    | none => exact h.halt_fault _
    | some fin => exact .pure _
  | end_ => exact .pure _
  | return_ => exact absurd rfl hreturn
  | call => exact absurd rfl hcall
  | drop => exact (h.pop false).bind fun _ => .pure _
  | select =>
    exact (h.pop false).bind fun cond => (h.pop false).bind fun val2 =>
      (h.pop false).bind fun val1 => (h.push _).bind fun _ => .pure _
  | localGet =>
    exact h.readLeb fun idx body' _ => h.room.bind fun _ => (h.read _).bind fun val =>
      (h.push _).bind fun _ => .pure _
  | localSet =>
    exact (h.pop false).bind fun cur => h.readLeb fun idx body' _ => h.writeLocal _ _
  | localTee =>
    exact h.readLeb fun idx body' _ => (h.pop true).bind fun cur => h.writeLocal _ _
  | i32Const | i64Const | f32Const | f64Const =>
    exact h.readLeb fun val body' _ => (h.push _).bind fun _ => .pure _
  | i32Eqz => exact (h.pop false).bind fun c1 => (h.push _).bind fun _ => .pure _
  | i32Eq | gtS =>
    exact (h.pop false).bind fun c2 => (h.pop false).bind fun c1 => (h.push _).bind fun _ => .pure _
  | i32Ne =>
    exact (h.pop false).bind fun c2 => (h.pop false).bind fun c1 =>
      .ite (fun _ => h.error _) fun _ => (h.push _).bind fun _ => .pure _

/-- Every handler but `return`, when what it calls back into keeps the invariant. The callbacks are
hypotheses here, so that the rule can stand inside an induction on the step bound. -/
theorem run_of_ne (h : Stable M I H) (fn : RunFn) (hret : fn ≠ .return_)
    (hfunc : ∀ f ∈ env.funcs, Keeps M I H (r.func f))
    (hloop : ∀ body, Keeps M I H (r.loop func body)) : Keeps M I H (fn.run env r func body) := by
  by_cases hif : fn = .if_
  · subst hif
    exact h.if_ hloop
  by_cases hcall : fn = .call
  · subst hcall
    exact h.call hfunc
  exact h.leaf hif hcall hret

/-- Every handler, when what it calls back into keeps the invariant. -/
theorem run (h : Stable M I H) (fn : RunFn)
    (hreturn : ∀ body, Keeps M I H (fwInstrRunReturn func body))
    (hfunc : ∀ f ∈ env.funcs, Keeps M I H (r.func f))
    (hloop : ∀ body, Keeps M I H (r.loop func body)) : Keeps M I H (fn.run env r func body) := by
  by_cases hret : fn = .return_
  · subst hret
    exact hreturn body
  · exact h.run_of_ne fn hret hfunc hloop

/-- One round of a dispatch loop and the rest, when a fetch keeps the invariant. -/
theorem dispatch (h : Stable M I H)
    (hfetch : ∀ g s, I g s →
      M.ok g (.fetch body.pos s.ctx) ∧ I (M.step g (.fetch body.pos s.ctx)) s)
    (hrun : ∀ (fn : RunFn) body, Keeps M I H (fn.run env r func body))
    (hloop : ∀ body, Keeps M I H (r.loop func body)) :
    Keeps M I H (dispatchLoop env r func body) := by
  exact dispatch_rule (fun _ _ _ hI => hI) (fun _ => hfetch) (fun _ _ hI => hI) (h.fault _)
    fun _ _ fn _ _ => (hrun fn _).bind fun res => hloop _

/-! ## Whole runs

By induction on the number of steps, for functions and loops together. -/

theorem pushArgs (h : Stable M I H) : ∀ args, Keeps M I H (fwPushArgs args)
  | [] => .pure _
  | _ :: args => (h.push _).bind fun _ => h.pushArgs args

/-- A run of a function from outside, when the function keeps the invariant: the arguments are
pushed before, and the result is popped behind. -/
theorem moduleRunFunc (h : Stable M I H) {n : ℕ}
    (hfunc : Keeps M I H ((interp env n).func func)) (args : List (List UInt8)) (rets : Bool) :
    Keeps M I H (fwModuleRunFunc env n func args rets) := by
  refine .ite (fun _ => .pure _) fun _ => (h.pushArgs _).bind fun _ => hfunc.bind fun status => ?_
  cases status with
  | err => exact .pure _
  | ok => exact .ite (fun _ => (h.pop _).bind fun _ => .pure _) fun _ => .pure _

end Stable

/-! ## Invariants of the frame

For invariants that are about the frame and the calls, and nothing else. -/

section

variable {γ : Type} {M : Monitor γ Event} {J K : γ → Frame → Prop} {env : Env}

/-- The handlers keep what is known of the frame, under a monitor that quiet events do not move.
None of them writes to it; a new frame comes with a function. -/
theorem stable_frame (hM : ∀ g e, e.Quiet → M.ok g e ∧ M.step g e = g) :
    Stable M (fun g s => J g s.ctx.frame) fun _ _ => True where
  push st := Triple.of_spares (StackOnly.push st).frame hM
  room := Triple.of_spares StackOnly.room.frame hM
  pop peek := Triple.of_spares (StackOnly.pop peek).frame hM
  read idx := Triple.of_spares (StackOnly.localsRead idx).frame hM
  write p idx val :=
    (Triple.of_spares (CtxKept.localsWrite p idx val).frame hM).pre fun _ _ hs => hs.1
  tick := Triple.of_spares StackOnly.tick.frame hM
  host addr args := Triple.of_spares (Spares.emit (by trivial)) hM
  err := Triple.of_spares (Spares.emit (by trivial)) hM
  fault _ _ _ _ := trivial
  hang _ _ _ := trivial

/-- A function is entered with new locals and a new frame, at the depth that there is. -/
theorem enterFunc_ctx {I L : γ → Ctx → Prop} {func : FwModuleFunc}
    (hM : ∀ g e, e.Quiet → M.ok g e ∧ M.step g e = g)
    (henter : ∀ g ctx locals, I g ctx → M.ok g (.enter func ctx.pos) ∧
      L (M.step g (.enter func ctx.pos)) { ctx with
        locals := locals, frame := ⟨func.body.last, UInt8.ofNat ctx.pos⟩ }) :
    Triple M (fun g s => I g s.ctx) (fwEnterFunc env func) (fun _ g s => L g s.ctx)
      fun _ _ => True := by
  refine Triple.bind (Triple.of_spares CtxKept.initLocals hM) fun locals =>
    Triple.bind (Triple.of_spares (CtxKept.copyParams locals _ _) hM) fun _ =>
    Triple.get_bind fun s₀ => ?_
  refine Triple.emit_bind
    (R := fun g _ => L g { s₀.ctx with
      locals := locals, frame := ⟨func.body.last, UInt8.ofNat s₀.ctx.pos⟩ }) ?_
    (Triple.bind (R := fun _ g s => L g s.ctx) (Triple.set fun _ _ h => h) fun _ =>
      Triple.pure fun _ _ h => h)
  rintro g s ⟨hI, rfl⟩
  exact henter g s.ctx locals hI

/-- A function is entered with a new frame, which the invariant has to hold of. -/
theorem enterFunc_frame {func : FwModuleFunc} (hM : ∀ g e, e.Quiet → M.ok g e ∧ M.step g e = g)
    (henter : ∀ g frame depth, J g frame → M.ok g (.enter func depth) ∧
      K (M.step g (.enter func depth)) ⟨func.body.last, UInt8.ofNat depth⟩) :
    Triple M (fun g s => J g s.ctx.frame) (fwEnterFunc env func)
      (fun _ g s => K g s.ctx.frame) fun _ _ => True :=
  enterFunc_ctx (I := fun g ctx => J g ctx.frame) (L := fun g ctx => K g ctx.frame) hM
    fun g ctx _ h => henter g ctx.frame ctx.pos h

/-- A function is left with the frame as it is, which is that of the function entered last. On each
of the three ways out only `.leave` concerns a monitor of the calls. -/
theorem leaveFunc_frame (hM : ∀ g e, e.Quiet → M.ok g e ∧ M.step g e = g)
    (hleave : ∀ g frame, J g frame → M.ok g .leave ∧ K (M.step g .leave) frame)
    (saveLocals : Option ℕ) (exit : LoopExit) :
    Triple M (fun g s => J g s.ctx.frame) (fwLeaveFunc saveLocals exit)
      (fun _ g s => K g s.ctx.frame) fun _ _ => True := by
  have hend : Triple M (fun g s => J g s.ctx.frame) (do emit .leave; pure Status.ok : Run _)
      (fun _ g s => K g s.ctx.frame) fun _ _ => True :=
    Triple.emit_bind (R := fun g s => K g s.ctx.frame) (fun g s h => hleave g _ h)
      (Triple.pure fun _ _ h => h)
  have hfree : ∀ p, Keeps M (fun g s => J g s.ctx.frame) (fun _ _ => True) (fwLocalsFreeIf p) :=
    fun p => Triple.of_spares (CtxKept.localsFreeIf p).frame hM
  have herr : Triple M (fun g s => J g s.ctx.frame) (fwErrLabel saveLocals)
      (fun _ g s => K g s.ctx.frame) fun _ _ => True :=
    Triple.get_bind fun s₀ => Triple.bind
      ((Triple.of_spares (Spares.emit (by trivial)) hM).pre fun _ _ h => h.1) fun _ =>
      Triple.bind (hfree _) fun _ => hend
  cases exit with
  | done body =>
    refine Triple.get_bind fun s₀ => Triple.bind ((hfree _).pre fun _ _ h => h.1) fun _ =>
      Triple.get_bind fun s₁ => Triple.bind (R := fun _ g s => J g s.ctx.frame)
        (Triple.set ?_) fun _ => ?_
    · rintro g s ⟨h, rfl⟩
      exact h
    · split
      · exact herr
      · exact hend
  | badOpcode => exact Triple.bind (Triple.of_spares (Spares.emit (by trivial)) hM) fun _ => herr
  | strErr => exact hend

end

end FastWasm
