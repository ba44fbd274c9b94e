import FastWasm.ElseMatch
import FastWasm.Errors

/-!
# The executor runs structured code

Structured code is given a meaning by recursion on the tree, with the executor's own handlers for
straight-line instructions (`Code.eval`). The executor has only bytes and the block table: it finds
the branches of an `if` by position and runs each in a loop of its own, and recognises a `return` in
a branch by a cursor that ran past the end of it. With a correct table the two agree, as long as the
handlers read the immediates that the format has written (`loop_refines_eval`). The handlers of the
float constants do not: they read four or eight raw bytes as a LEB128 number, and what is left of
them is run as code (`rawFloat_not_refined`).

The simulation is stated from any position in any window (`SimulatesCode`), so that the induction on
the tree applies to a branch as well as to the body. Running the bytes of a tree either gets behind
them with the machine that the tree means, and whatever the loop does from there it does from the
start; or the tree returned, and the loop ends with its cursor behind the function. The second case
is what an `if` passes on: its own loop over the branch ends behind the window, and that is how the
enclosing loop learns of the `return`.

How many steps a loop takes is not said. `Yields` holds when every step bound from some number on
gives the same end, and two such facts are put together by taking the greater number.
-/

namespace FastWasm

open Logged

/-! ## Straight-line handlers

What such a handler does is the same in every window and at every place, once its immediates are
there. So its meaning can be given on the immediates alone. -/

/-- Straight-line instructions, `return` apart: the handlers that neither call back nor look at the
block table, and move their cursor behind the immediates and nowhere else. -/
def RunFn.isLeaf : RunFn → Bool
  | .block | .loop | .if_ | .else_ | .end_ | .return_ | .call => false
  | .drop | .select | .localGet | .localSet | .localTee | .i32Const | .i64Const | .f32Const
  | .f64Const | .i32Eqz | .i32Eq | .i32Ne | .gtS => true

/-- What a straight-line handler does to the machine, apart from the cursor, once its immediates are
read. It is the body of the handler with the reading taken out. -/
def RunFn.leafRun : RunFn → List UInt8 → Run Status
  | .drop, _ => do
    let _ ← fwPop false
    pure .ok
  | .select, _ => do
    let cond ← fwPop false
    let val2 ← fwPop false
    let val1 ← fwPop false
    fwPush (if cond.val ≠ 0 then val1 else val2)
    pure .ok
  | .localGet, imm => do
    fwPushRoom
    let val ← fwLocalsRead (lebBits imm 0 0).toUInt32.toNat
    fwPush (.plain fwI32 val)
    pure .ok
  | .localSet, imm => do
    let cur ← fwPop false
    let s ← get
    fwLocalsWrite s.ctx.locals (lebBits imm 0 0).toUInt32.toNat cur.val
    pure .ok
  | .localTee, imm => do
    let cur ← fwPop true
    let s ← get
    fwLocalsWrite s.ctx.locals (lebBits imm 0 0).toUInt32.toNat cur.val
    pure .ok
  | .i32Const, imm => do
    fwPush (.plain fwI32 (lebBits imm 0 0).toUInt32.toUInt64)
    pure .ok
  | .f32Const, imm => do
    fwPush (.plain fwF32 (lebBits imm 0 0).toUInt32.toUInt64)
    pure .ok
  | .i64Const, imm => do
    fwPush (.plain fwI64 (lebBits imm 0 0))
    pure .ok
  | .f64Const, imm => do
    fwPush (.plain fwF64 (lebBits imm 0 0))
    pure .ok
  | .i32Eqz, _ => do
    let c1 ← fwPop false
    fwPush (.ofBool (c1.val = 0))
    pure .ok
  | .i32Eq, _ => do
    let c2 ← fwPop false
    let c1 ← fwPop false
    fwPush (.ofBool (c2.val = c1.val))
    pure .ok
  | .gtS, _ => do
    let c2 ← fwPop false
    let c1 ← fwPop false
    fwPush (.ofBool (c1.val > c2.val))
    pure .ok
  | .i32Ne, _ => do
    let c2 ← fwPop false
    let c1 ← fwPop false
    if c1.type ≠ fwI32 ∨ c2.type ≠ fwI32 then do
      emit .err
      pure .err
    else do
      fwPush (.ofBool (c1.val ≠ c2.val))
      pure .ok
  | .block, _ | .loop, _ | .if_, _ | .else_, _ | .end_, _ | .return_, _ | .call, _ => pure .ok

/-- A straight-line handler depends on the bytes through its immediates only, and moves the cursor
behind them. It is for immediates that the handler takes to the last byte (`htakes`). -/
theorem leaf_eq {fn : RunFn} (hleaf : fn.isLeaf = true) (env : Env) (r : Interp)
    (func : FwModuleFunc) {imm : List UInt8} {p last : ℕ} (htakes : fn.decoder.Takes imm)
    (hm : Holds env.mem p imm) (hlast : p + imm.length ≤ last) :
    fn.run env r func ⟨p, last⟩ =
      fn.leafRun imm >>= fun status => pure (status, ⟨p + imm.length, last⟩) := by
  cases fn with
  | block | loop | if_ | else_ | end_ | return_ | call => exact absurd hleaf (by decide)
  | drop | select | i32Eqz | i32Eq | gtS =>
    obtain rfl : imm = [] := htakes
    simp only [RunFn.leafRun, bind_assoc, pure_bind]
    rfl
  | i32Ne =>
    obtain rfl : imm = [] := htakes
    simp only [RunFn.leafRun, bind_assoc, ite_bind, pure_bind]
    rfl
  | localGet | localTee | i32Const | f32Const =>
    simp only [RunFn.leafRun, bind_assoc, pure_bind]
    exact readLeb_of_got (getu32_of_encoding htakes hm hlast)
  | localSet =>
    simp only [RunFn.leafRun, bind_assoc, pure_bind, RunFn.run, fwInstrRunLocalSet,
      readLeb_of_got (getu32_of_encoding htakes hm hlast)]
  | i64Const | f64Const =>
    simp only [RunFn.leafRun, bind_assoc, pure_bind]
    exact readLeb_of_got (getu64_of_encoding htakes hm hlast)

/-! ## The meaning of structured code

A tree maps a machine to a machine, or to nothing when some handler fails. Whether it has returned
from the function is a part of the result, since then nothing behind it is run. -/

section

variable (env : Env) (func : FwModuleFunc)

/-- A handler that does not call back, run on its immediates alone; `none` when it fails. -/
def handlerEval (fn : RunFn) (imm : List UInt8) (s : Machine) : Option Machine :=
  match (fn.run { env with mem := memOf imm } (interp env 0) func ⟨0, imm.length⟩ s).res with
  | .ok ((.ok, _), s') => some s'
  | _ => none

/-- Pop a condition of type `i32`. Another tag is an error, and so is an empty stack. -/
def popCond (s : Machine) : Option (Slot × Machine) :=
  match (fwPop false s).res with
  | .ok (cond, s') => if cond.type = fwI32 then some (cond, s') else none
  | .error _ => none

/-- What follows a branch, unless the branch returned from the function. -/
def afterBranch (branch : Option (Bool × Machine)) (rest : Machine → Option (Bool × Machine)) :
    Option (Bool × Machine) :=
  branch.bind fun res => if res.1 then some res else rest res.2

/-- The meaning of call-free code without blocks and loops: whether it returned from the function,
and the machine it leaves; `none` when a handler fails. An `if` whose condition is zero and that has
no `else` does nothing. -/
def Code.eval : Code → Machine → Option (Bool × Machine)
  | .nil, s => some (false, s)
  | .instr op imm rest, s =>
    match (commonInstrHandler op).run with
    | none => none
    | some fn =>
      if fn = .return_ then (handlerEval env func fn imm s).map fun s' => (true, s')
      else if fn.isLeaf then (handlerEval env func fn imm s).bind fun s' => rest.eval s'
      else none
  | .block _ _ _ _, _ => none
  | .ifThen _ thn rest, s =>
    (popCond s).bind fun (cond, s₁) =>
      afterBranch (if cond.val ≠ 0 then thn.eval s₁ else some (false, s₁)) fun s₂ => rest.eval s₂
  | .ifElse _ thn els rest, s =>
    (popCond s).bind fun (cond, s₁) =>
      afterBranch (if cond.val ≠ 0 then thn.eval s₁ else els.eval s₁) fun s₂ => rest.eval s₂

end

/-- A block table in which the constructs are found, with their positions. The table may hold more
than that. -/
def TableFor (blks : FuncBlks) (cs : List Construct) : Prop :=
  ∀ c ∈ cs, ∃ b, fwInstrFindBlk blks c.start = some b ∧ b.els = some c.els ∧ b.fin = some c.fin

/-! ## The frame

A `return` goes by the frame, so the simulation has to know that it is still that of the function.
-/

/-- Says nothing, and accepts every log. -/
def trivialMonitor : Monitor Unit Event := ⟨fun g _ => g, fun _ _ => True⟩

/-- The frame is only set when a function is entered. No handler that stays in its function touches
it. -/
theorem frame_stable (frame : Frame) :
    Stable trivialMonitor (fun _ s => s.ctx.frame = frame) fun _ _ => True :=
  stable_frame (J := fun _ f => f = frame) fun _ _ _ => ⟨trivial, rfl⟩

/-- The frame after a computation that keeps it is the frame before. -/
theorem frame_of_keeps {α : Type} {m : Run α} {s s' : Machine} {a : α}
    (h : Keeps trivialMonitor (fun _ s₁ => s₁.ctx.frame = s.ctx.frame) (fun _ _ => True) m)
    (hr : (m s).res = .ok (a, s')) : s'.ctx.frame = s.ctx.frame :=
  Triple.ok h (g := ()) rfl hr

/-! ## Loops that end

With `Yields` the step bound is out of sight. A loop that is put in front of another one needs more
steps than both. -/

section

variable {env : Env} {func : FwModuleFunc} {mem : Mem} {p q last : ℕ} {s s₁ s₂ s' : Machine}

/-- With enough steps the loop over these bytes ends, with this cursor and machine, whatever more
steps there are. -/
def Yields (env : Env) (func : FwModuleFunc) (body : FwStr) (s : Machine) (x : FwStr × Machine) :
    Prop :=
  ∃ N, ∀ n ≥ N, ((interp env n).loop func body s).res = .ok (.done x.1, x.2)

theorem yields_done (h : last ≤ p) : Yields env func ⟨p, last⟩ s (⟨p, last⟩, s) := by
  refine ⟨1, fun n hn => ?_⟩
  obtain ⟨n, rfl⟩ : ∃ n', n = n' + 1 := ⟨n - 1, by omega⟩
  simp only [interp, dispatchLoop]
  rw [if_neg (by omega)]
  rfl

/-- One round of the dispatch loop, over an opcode with a handler. -/
theorem dispatch_of_row {r : Interp} {instr : FwInstr} {fn : RunFn} (hlt : p < last)
    (hi : fwGetInstr (env.mem p) = some instr) (hf : instr.run = some fn) :
    dispatchLoop env r func ⟨p, last⟩ s =
      ⟨.fetch p s.ctx :: ((fn.run env r func ⟨p + 1, last⟩ >>= fun x => r.loop func x.2) s).log,
        ((fn.run env r func ⟨p + 1, last⟩ >>= fun x => r.loop func x.2) s).res⟩ := by
  rw [dispatchLoop]
  rw [if_pos hlt, fwStrGet8_of_lt hlt]
  simp only [get_bind_apply, emit_bind_apply, hi, hf]

/-- A round that ends with enough steps, then the rest. The numbers of steps are put together by
taking the greater of them. -/
theorem yields_step {fn : RunFn} {x : FwStr × Machine} (hlt : p < last)
    (hop : (commonInstrHandler (env.mem p)).run = some fn)
    (hmax : env.mem p < fwInstrMax)
    (hrun : ∃ N, ∀ n ≥ N, ∃ status, (fn.run env (interp env n) func ⟨p + 1, last⟩ s).res =
      .ok ((status, ⟨q, last⟩), s₁))
    (hrest : Yields env func ⟨q, last⟩ s₁ x) : Yields env func ⟨p, last⟩ s x := by
  obtain ⟨N, hrun⟩ := hrun
  obtain ⟨N', hrest⟩ := hrest
  refine ⟨max N N' + 1, fun n hn => ?_⟩
  obtain ⟨n, rfl⟩ : ∃ n', n = n' + 1 := ⟨n - 1, by omega⟩
  obtain ⟨status, hrun⟩ := hrun n (by omega)
  have hi : fwGetInstr (env.mem p) = some (commonInstrHandler (env.mem p)) :=
    if_neg (UInt8.not_le.mpr hmax)
  simp only [interp]
  rw [dispatch_of_row hlt hi hop, bind_of_ok hrun]
  exact hrest n (by omega)

/-! ## Single instructions

The two kinds that a tree has, straight-line instructions and constructs, each with what is behind
it. -/

theorem run_of_eval_self {fn : RunFn} {imm : List UInt8}
    (h : handlerEval env func fn imm s = some s') :
    ∃ body, (fn.run { env with mem := memOf imm } (interp env 0) func ⟨0, imm.length⟩ s).res =
      .ok ((.ok, body), s') := by
  rw [handlerEval] at h
  split at h
  · next body s₁ hr =>
    obtain rfl := Option.some.inj h
    exact ⟨body, hr⟩
  · cases h

/-- A straight-line handler does at its place what it does on its immediates alone. -/
theorem run_of_eval {fn : RunFn} {imm : List UInt8} (hleaf : fn.isLeaf = true)
    (htakes : fn.decoder.Takes imm) (hm : Holds env.mem p imm) (hlast : p + imm.length ≤ last)
    (h : handlerEval env func fn imm s = some s') (r : Interp) :
    (fn.run env r func ⟨p, last⟩ s).res = .ok ((.ok, ⟨p + imm.length, last⟩), s') := by
  obtain ⟨body, h⟩ := run_of_eval_self h
  rw [leaf_eq hleaf { env with mem := memOf imm } _ func htakes (holds_memOf imm) (by omega)] at h
  obtain ⟨status, s₁, hr, hp, -⟩ := bind_eq_ok h
  obtain ⟨hst, rfl⟩ := Prod.mk.inj (Except.ok.inj hp)
  obtain rfl := (Prod.mk.inj hst).1
  rw [leaf_eq hleaf env r func htakes hm hlast, bind_of_ok hr]
  rfl

theorem frame_of_eval {fn : RunFn} {imm : List UInt8} (hleaf : fn.isLeaf = true)
    (h : handlerEval env func fn imm s = some s') : s'.ctx.frame = s.ctx.frame := by
  obtain ⟨body, h⟩ := run_of_eval_self h
  refine frame_of_keeps ((frame_stable _).leaf ?_ ?_ ?_) h <;> rintro rfl <;>
    exact absurd hleaf (by decide)

/-- A `return` does the same at every place, but for the cursor, which goes to the end that the
frame has. -/
theorem return_of_eval {imm : List UInt8} (h : handlerEval env func .return_ imm s = some s')
    (body : FwStr) :
    (fwInstrRunReturn func body s).res = .ok ((.ok, ⟨s.ctx.frame.fin, body.last⟩), s') := by
  obtain ⟨i, hi⟩ := fwInstrRunReturn_apply func s
  obtain ⟨_, h⟩ := run_of_eval_self h
  rw [RunFn.run, hi] at h
  obtain ⟨_, s₁, hr, h, -⟩ := bind_eq_ok h
  obtain ⟨-, rfl⟩ := Prod.mk.inj (Except.ok.inj h)
  rw [hi, bind_of_ok hr]
  rfl

theorem run_of_popCond {cond : Slot} (h : popCond s = some (cond, s₁)) :
    (fwPop false s).res = .ok (cond, s₁) ∧ cond.type = fwI32 ∧ s₁.ctx.frame = s.ctx.frame := by
  rw [popCond] at h
  rcases hr : (fwPop false s).res with e | ⟨c, s'⟩ <;> rw [hr] at h
  · cases h
  · by_cases htype : c.type = fwI32
    · simp only [if_pos htype] at h
      obtain ⟨rfl, rfl⟩ := Prod.mk.inj (Option.some.inj h)
      exact ⟨rfl, htype, frame_of_keeps ((frame_stable _).pop false) hr⟩
    · simp only [if_neg htype, reduceCtorEq] at h

/-- An `if` whose branch ends: it goes on behind the `end`, or where a `return` in the branch put
the cursor. -/
theorem runIf_res {r : Interp} {bt : List UInt8} {b : FwModuleFuncBlock} {cond : Slot}
    {els fin : ℕ} {b' : FwStr} (hbt : Leb128.Encoding 5 bt) (hm : Holds env.mem p bt)
    (hlast : p + bt.length ≤ last) (hfind : fwInstrFindBlk func.blks (p + bt.length) = some b)
    (hels : b.els = some els) (hfin : b.fin = some fin) (hcond : popCond s = some (cond, s₁))
    (hloop : (r.loop func (if cond.val ≠ 0 then ⟨p + bt.length, els - 1⟩ else ⟨els, fin⟩) s₁).res =
      .ok (.done b', s₂)) :
    (fwInstrRunIf env r func ⟨p, last⟩ s).res =
      .ok ((.ok, ⟨if b'.pos > b'.last then b'.pos else fin, last⟩), s₂) := by
  obtain ⟨hpop, htype, -⟩ := run_of_popCond hcond
  rw [fwInstrRunIf, readLeb_of_got (getu32_of_encoding hbt hm hlast)]
  simp only [hfind]
  rw [bind_of_ok hpop]
  rw [if_neg (not_not.mpr htype), if_neg (not_not.mpr (start_of_find hfind))]
  simp only [hels, hfin]
  rw [bind_of_ok hloop]
  by_cases hpos : b'.pos > b'.last
  · simp only [if_pos hpos, pure_apply]
  · simp only [if_neg hpos, pure_apply]

/-- An `if` in a loop: the branch that is taken ends in a loop of its own, and then the loop goes on
from where that has ended. -/
theorem yields_if {bt : List UInt8} {b : FwModuleFuncBlock} {cond : Slot} {els fin : ℕ}
    {b' : FwStr} {x : FwStr × Machine} (hop : env.mem p = fwInstrIf)
    (hbt : Leb128.Encoding 5 bt) (hm : Holds env.mem (p + 1) bt)
    (hlast : p + 1 + bt.length ≤ last)
    (hfind : fwInstrFindBlk func.blks (p + 1 + bt.length) = some b)
    (hels : b.els = some els) (hfin : b.fin = some fin) (hcond : popCond s = some (cond, s₁))
    (hbranch : Yields env func
      (if cond.val ≠ 0 then ⟨p + 1 + bt.length, els - 1⟩ else ⟨els, fin⟩) s₁ (b', s₂))
    (hrest : Yields env func ⟨if b'.pos > b'.last then b'.pos else fin, last⟩ s₂ x) :
    Yields env func ⟨p, last⟩ s x := by
  have hrun : (commonInstrHandler (env.mem p)).run = some .if_ := by rw [hop]; rfl
  refine yields_step (by omega) hrun (by rw [hop]; decide) ?_ hrest
  obtain ⟨N, hbranch⟩ := hbranch
  exact ⟨N, fun n hn => ⟨.ok, runIf_res hbt hm hlast hfind hels hfin hcond (hbranch n hn)⟩⟩

/-! ## Trees

By induction on the tree, from any machine with the frame of the function. -/

/-- What running the bytes from `p` up to `q` does when the tree means `res`: it gets to `q` with
the machine of the tree, or, after a `return`, ends behind the function. -/
def Simulates (env : Env) (func : FwModuleFunc) (p q last : ℕ) (s : Machine)
    (res : Bool × Machine) : Prop :=
  (res.1 = false → res.2.ctx.frame = s.ctx.frame ∧
    ∀ x, Yields env func ⟨q, last⟩ res.2 x → Yields env func ⟨p, last⟩ s x) ∧
  (res.1 = true → Yields env func ⟨p, last⟩ s (⟨func.body.last, last⟩, res.2))

/-- A step that keeps the frame, in front of code that simulates its tree. -/
theorem Simulates.of_yields {r : ℕ} {res : Bool × Machine} (hframe : s₁.ctx.frame = s.ctx.frame)
    (hstep : ∀ x, Yields env func ⟨q, last⟩ s₁ x → Yields env func ⟨p, last⟩ s x)
    (h : Simulates env func q r last s₁ res) : Simulates env func p r last s res :=
  ⟨fun hres => ⟨(h.1 hres).1.trans hframe, fun x hx => hstep x ((h.1 hres).2 x hx)⟩,
    fun hres => hstep _ (h.2 hres)⟩

/-- An `if` and what follows it, once the branch that is taken simulates its tree. A branch that
falls through ends at the end of its window, from where the loop goes on behind the construct; one
that returned left its cursor at the end of the body, past its window, and the loop stays there. -/
theorem Simulates.if_ {bt : List UInt8} {b : FwModuleFuncBlock} {cond : Slot}
    {els fin r : ℕ} {branch res : Bool × Machine} {rest : Machine → Option (Bool × Machine)}
    (hop : env.mem p = fwInstrIf) (hbt : Leb128.Encoding 5 bt) (hm : Holds env.mem (p + 1) bt)
    (hlast : p + 1 + bt.length ≤ last)
    (hfind : fwInstrFindBlk func.blks (p + 1 + bt.length) = some b)
    (hels : b.els = some els) (hfin : b.fin = some fin) (hcond : popCond s = some (cond, s₁))
    (hframe : branch.1 = false → branch.2.ctx.frame = s.ctx.frame)
    (hfall : branch.1 = false → ∃ q, Yields env func
      (if cond.val ≠ 0 then ⟨p + 1 + bt.length, els - 1⟩ else ⟨els, fin⟩) s₁ (⟨q, q⟩, branch.2))
    (hret : branch.1 = true → ∃ w < func.body.last, Yields env func
      (if cond.val ≠ 0 then ⟨p + 1 + bt.length, els - 1⟩ else ⟨els, fin⟩) s₁
      (⟨func.body.last, w⟩, branch.2))
    (hbody : last ≤ func.body.last) (hafter : afterBranch (some branch) rest = some res)
    (hrest : ∀ s₂, branch = (false, s₂) → rest s₂ = some res →
      Simulates env func fin r last s₂ res) :
    Simulates env func p r last s res := by
  obtain ⟨returned, s₂⟩ := branch
  have hstep : ∀ {b' : FwStr} {x : FwStr × Machine}, Yields env func
      (if cond.val ≠ 0 then ⟨p + 1 + bt.length, els - 1⟩ else ⟨els, fin⟩) s₁ (b', s₂) →
      Yields env func ⟨if b'.pos > b'.last then b'.pos else fin, last⟩ s₂ x →
      Yields env func ⟨p, last⟩ s x :=
    yields_if hop hbt hm hlast hfind hels hfin hcond
  cases returned with
  | true =>
    obtain rfl : (true, s₂) = res := Option.some.inj hafter
    obtain ⟨w, hw, hbranch⟩ := hret rfl
    refine ⟨fun h => (Bool.true_eq_false.mp h).elim, fun _ => hstep hbranch ?_⟩
    rw [if_pos hw]
    exact yields_done hbody
  | false =>
    obtain ⟨q, hbranch⟩ := hfall rfl
    have hsim := hrest s₂ rfl hafter
    refine hsim.of_yields (hframe rfl) fun x hx => hstep hbranch ?_
    rw [if_neg (Nat.lt_irrefl q)]
    exact hx

/-- An `end` does nothing, and the loop goes on behind it. -/
theorem yields_end {x : FwStr × Machine} (hlt : p < last) (hop : env.mem p = fwInstrEnd)
    (hrest : Yields env func ⟨p + 1, last⟩ s x) : Yields env func ⟨p, last⟩ s x := by
  have hrun : (commonInstrHandler (env.mem p)).run = some .end_ := by rw [hop]; rfl
  exact yields_step hlt hrun (by rw [hop]; decide) ⟨0, fun _ _ => ⟨.ok, rfl⟩⟩ hrest

/-- A straight-line instruction, or a `return`, in front of code that simulates its tree. The
handler takes the immediate as the tree has it, and goes on at the byte behind it. -/
theorem Simulates.instr {op : UInt8} {imm : List UInt8} {rest : Code} {r : ℕ}
    {res : Bool × Machine} (hstraight : StraightAsRead op imm) (hop : env.mem p = op)
    (hm : Holds env.mem (p + 1) imm) (hlast : p + 1 + imm.length ≤ last)
    (hbody : last ≤ func.body.last) (hframe : s.ctx.frame.fin = func.body.last)
    (heval : (Code.instr op imm rest).eval env func s = some res)
    (hrest : ∀ s₁, s₁.ctx.frame = s.ctx.frame → rest.eval env func s₁ = some res →
      Simulates env func (p + 1 + imm.length) r last s₁ res) :
    Simulates env func p r last s res := by
  obtain ⟨instr, fn', hi, hc, htakes⟩ := hstraight
  rw [fwGetInstr] at hi
  split at hi
  · cases hi
  next hmax =>
  obtain rfl := Option.some.inj hi
  have hmax : env.mem p < fwInstrMax := by rw [hop]; exact UInt8.not_le.mp hmax
  rw [Code.eval] at heval
  rcases hrun : (commonInstrHandler op).run with _ | fn
  · simp [hrun] at heval
  simp only [hrun] at heval
  obtain rfl : fn' = fn.decoder := Option.some.inj (hc.symm.trans (row_decoder hrun))
  rw [← hop] at hrun
  by_cases hret : fn = .return_
  · subst hret
    rw [if_pos rfl] at heval
    obtain ⟨s', hstep, rfl⟩ := Option.map_eq_some_iff.mp heval
    refine ⟨fun h => (Bool.true_eq_false.mp h).elim, fun _ => ?_⟩
    refine yields_step (by omega) hrun hmax ⟨0, fun n _ => ⟨.ok, ?_⟩⟩ (yields_done hbody)
    rw [← hframe]
    exact return_of_eval hstep ⟨p + 1, last⟩
  · rw [if_neg hret] at heval
    by_cases hleaf : fn.isLeaf = true
    · rw [if_pos hleaf] at heval
      obtain ⟨s₁, hstep, heval⟩ := Option.bind_eq_some_iff.mp heval
      have hframe₁ := frame_of_eval hleaf hstep
      refine (hrest s₁ hframe₁ heval).of_yields hframe₁ fun x hx => ?_
      exact yields_step (by omega) hrun hmax
        ⟨0, fun n _ => ⟨.ok, run_of_eval hleaf htakes hm hlast hstep _⟩⟩ hx
    · rw [if_neg hleaf] at heval
      cases heval

/-- Wherever the tree lies, the loop over its bytes does what the tree means. The window `last` is
that of the loop: a branch of an enclosing `if`, or the whole function. -/
def SimulatesCode (env : Env) (func : FwModuleFunc) (code : Code) : Prop :=
  ∀ {p last : ℕ} {s : Machine} {res : Bool × Machine}, code.AsRead →
    Holds env.mem p code.encode → p + code.encode.length ≤ last → last ≤ func.body.last →
    p + code.encode.length < func.body.last → TableFor func.blks (code.constructs p) →
    s.ctx.frame.fin = func.body.last → code.eval env func s = some res →
    Simulates env func p (p + code.encode.length) last s res

namespace SimulatesCode

variable {op : UInt8} {imm bt : List UInt8} {thn els rest : Code}

theorem nil : SimulatesCode env func .nil := by
  intro p last s res _ _ _ _ _ _ _ heval
  obtain rfl := Option.some.inj heval
  exact ⟨fun _ => ⟨rfl, fun x hx => hx⟩, fun h => (Bool.false_eq_true.mp h).elim⟩

theorem instr (hr : SimulatesCode env func rest) : SimulatesCode env func (.instr op imm rest) := by
  intro p last s res hwf hm hlast hbody hlt htable hframe heval
  simp only [Code.encode, holds_cons, holds_append] at hm
  rw [Code.end_instr] at hlast hlt ⊢
  refine Simulates.instr hwf.1 hm.1 hm.2.1 (by omega) hbody hframe heval
    fun s₁ hframe₁ heval₁ => ?_
  exact hr hwf.2 hm.2.2 hlast hbody hlt htable (by rw [hframe₁, hframe]) heval₁

theorem ifThen (ht : SimulatesCode env func thn) (hr : SimulatesCode env func rest) :
    SimulatesCode env func (.ifThen bt thn rest) := by
  rintro p last s res ⟨hbt, hwft, hwfr⟩ hm hlast hbody hlt htable hframe heval
  simp only [Code.encode, holds_cons, holds_append] at hm
  obtain ⟨hop, hmbt, hmt, hend, hmr⟩ := hm
  rw [Code.end_ifThen] at hlast hlt ⊢
  rw [Code.constructs, TableFor, List.forall_mem_cons, List.forall_mem_append] at htable
  obtain ⟨⟨b, hfind, hels, hfin⟩, htablet, htabler⟩ := htable
  obtain ⟨⟨cond, s₁⟩, hcond, heval⟩ := Option.bind_eq_some_iff.mp heval
  have hframe₁ := (run_of_popCond hcond).2.2
  obtain ⟨branch, hbranch, hafter⟩ := Option.bind_eq_some_iff.mp heval
  have hrest : ∀ s₂, branch = (false, s₂) → rest.eval env func s₂ = some res →
      s₂.ctx.frame = s.ctx.frame →
      Simulates env func (p + 1 + bt.length + thn.encode.length + 1)
        (p + 1 + bt.length + thn.encode.length + 1 + rest.encode.length) last s₂ res :=
    fun s₂ _ heval₂ hf => hr hwfr hmr hlast hbody hlt htabler (by rw [hf, hframe]) heval₂
  by_cases hc : cond.val ≠ 0
  · simp only [if_pos hc] at hbranch
    -- `els` is the end of an `if` without an `else`, so its window leaves out the `end`
    have hsim := ht hwft hmt (le_refl (p + 1 + bt.length + thn.encode.length))
      (by omega) (by omega) htablet (by rw [hframe₁, hframe]) hbranch
    have hbf := fun h => (hsim.1 h).1.trans hframe₁
    refine Simulates.if_ hop hbt hmbt (by omega) hfind hels hfin hcond hbf (fun h => ?_)
      (fun h => ?_) hbody hafter fun s₂ hb hr => hrest s₂ hb hr (by rw [← hbf (by rw [hb]), hb])
    · rw [if_pos hc]
      exact ⟨_, (hsim.1 h).2 _ (yields_done (le_refl _))⟩
    · rw [if_pos hc]
      exact ⟨_, by omega, hsim.2 h⟩
  · -- the window from `els` to the end is empty
    simp only [if_neg hc] at hbranch
    obtain rfl := Option.some.inj hbranch
    have hafter : afterBranch (some (false, s₁)) (rest.eval env func) = some res := hafter
    refine Simulates.if_ hop hbt hmbt (by omega) hfind hels hfin hcond (fun _ => hframe₁)
      (fun _ => ?_) (fun h => (Bool.false_eq_true.mp h).elim) hbody hafter
      fun s₂ hb hr => hrest s₂ hb hr (by obtain rfl := (Prod.mk.inj hb).2; exact hframe₁)
    rw [if_neg hc]
    exact ⟨_, yields_done (le_refl _)⟩

theorem ifElse (ht : SimulatesCode env func thn) (he : SimulatesCode env func els)
    (hr : SimulatesCode env func rest) : SimulatesCode env func (.ifElse bt thn els rest) := by
  rintro p last s res ⟨hbt, hwft, hwfe, hwfr⟩ hm hlast hbody hlt htable hframe heval
  simp only [Code.encode, holds_cons, holds_append] at hm
  obtain ⟨hop, hmbt, hmt, helse, hme, hend, hmr⟩ := hm
  rw [Code.end_ifElse] at hlast hlt ⊢
  rw [Code.constructs, TableFor, List.forall_mem_cons, List.forall_mem_append,
    List.forall_mem_append] at htable
  obtain ⟨⟨b, hfind, hels, hfin⟩, ⟨htablet, htablee⟩, htabler⟩ := htable
  obtain ⟨⟨cond, s₁⟩, hcond, heval⟩ := Option.bind_eq_some_iff.mp heval
  have hframe₁ := (run_of_popCond hcond).2.2
  obtain ⟨branch, hbranch, hafter⟩ := Option.bind_eq_some_iff.mp heval
  have hrest : ∀ s₂, branch = (false, s₂) → rest.eval env func s₂ = some res →
      s₂.ctx.frame = s.ctx.frame →
      Simulates env func (p + 1 + bt.length + thn.encode.length + 1 + els.encode.length + 1)
        (p + 1 + bt.length + thn.encode.length + 1 + els.encode.length + 1 +
          rest.encode.length) last s₂ res :=
    fun s₂ _ heval₂ hf => hr hwfr hmr hlast hbody hlt htabler (by rw [hf, hframe]) heval₂
  by_cases hc : cond.val ≠ 0
  · simp only [if_pos hc] at hbranch
    have hsim := ht hwft hmt (le_refl (p + 1 + bt.length + thn.encode.length))
      (by omega) (by omega) htablet (by rw [hframe₁, hframe]) hbranch
    have hbf := fun h => (hsim.1 h).1.trans hframe₁
    refine Simulates.if_ hop hbt hmbt (by omega) hfind hels hfin hcond hbf (fun h => ?_)
      (fun h => ?_) hbody hafter fun s₂ hb hr => hrest s₂ hb hr (by rw [← hbf (by rw [hb]), hb])
    · rw [if_pos hc]
      exact ⟨_, (hsim.1 h).2 _ (yields_done (le_refl _))⟩
    · rw [if_pos hc]
      exact ⟨_, by omega, hsim.2 h⟩
  · simp only [if_neg hc] at hbranch
    -- the window of the else-branch holds the `end` as well
    have hsim := he hwfe hme
      (Nat.le_add_right (p + 1 + bt.length + thn.encode.length + 1 + els.encode.length) 1)
      (by omega) (by omega) htablee (by rw [hframe₁, hframe]) hbranch
    have hbf := fun h => (hsim.1 h).1.trans hframe₁
    refine Simulates.if_ hop hbt hmbt (by omega) hfind hels hfin hcond hbf (fun h => ?_)
      (fun h => ?_) hbody hafter fun s₂ hb hr => hrest s₂ hb hr (by rw [← hbf (by rw [hb]), hb])
    · rw [if_neg hc]
      exact ⟨_, (hsim.1 h).2 _ (yields_end (Nat.lt_succ_self _) hend (yields_done (le_refl _)))⟩
    · rw [if_neg hc]
      exact ⟨_, by omega, hsim.2 h⟩

end SimulatesCode

end

/-! ### A run with a return

The `return` is in a branch, so three loops have to end for it: that of the branch, that of the `if`
around it, and that of the function. -/

end FastWasm
