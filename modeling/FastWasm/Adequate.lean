import FastWasm.Denote

/-!
# The executor computes the meaning of a program

The dispatch loop over the encoding of a tree does what the tree means, whatever it is: it ends as
the meaning does, by a return or by a halt, after the same events apart from the fetches of opcodes
(`leads_code`, by induction on the tree). With it every function does what it means
(`call_adequate`, by induction on the depth of the calls).

A meaning has no steps, it has a depth: the number of calls that may be open at once. The executor
has a step bound, which counts the rounds of the loops too. `Realizes` relates the two. From some
step bound on the computations come to the end of the meaning, when the meaning has one within its
depth; and when the meaning has used up its depth, computations with less steps than that have used
up their steps. The second part is what the converse needs: a run of the executor that returns gives
a meaning that returns at some depth (`run_ends_iff`).

A `return` behind a call goes to the end of the callee, and there the loops run bytes that belong to
no tree. The meaning stops there with the outcome `stray`, and nothing is claimed about what the
executor does (`Realizes.stray`).
-/

namespace FastWasm

open Logged

/-- All events are shown but the fetches of opcodes, which a meaning does not know: it has no
positions to fetch from. -/
def Event.shown (e : Event) : Bool := !e.isFetch

/-- A meaning that computations of the executor's, with more and more steps, come to. The first `N`
of them have no more steps than the meaning has depth. Where the meaning is lost in another function
nothing is known. -/
structure Realizes {α : Type} (N : ℕ) (s : Machine) (m : Meaning α) (m' : ℕ → Run α) : Prop where
  /-- with enough steps they end as the meaning does -/
  agrees : Agrees Event.shown Stop.halt s m m'
  /-- each of them is on the way of the meaning -/
  reaches : Reaches Event.shown Stop.halt Halt.fuel Stop.stray N s m m'

namespace Realizes

variable {α β δ : Type} {N : ℕ} {s : Machine} {m : Meaning α} {m' m₁' : ℕ → Run α}
  {k : α → Meaning β}

theorem run (m : Run α) : Realizes N s m.meaning fun _ => m :=
  ⟨Agrees.of_lift m fun _ _ h => Stop.halt.inj h, Reaches.of_lift m⟩

theorem pure (a : α) : Realizes N s (pure a) fun _ => (Pure.pure a : Run α) :=
  ⟨Agrees.pure a, Reaches.pure a⟩

theorem emit (e : Event) : Realizes N s (Logged.emit e : Meaning PUnit) fun _ => Logged.emit e :=
  run (Logged.emit e)

theorem halt (h : Halt) :
    Realizes N s (Logged.halt (Stop.halt h) : Meaning α) fun _ => Logged.halt h :=
  run (Logged.halt h)

theorem stray : Realizes N s (Logged.halt Stop.stray : Meaning α) m' :=
  ⟨Agrees.halt fun h => by rintro ⟨⟩, Reaches.halt_stray⟩

/-- No depth, and no steps: a computation that has used up its steps comes to a meaning that has
used up its depth. -/
theorem depth (h0 : m' 0 s = ⟨[], .error .fuel⟩) :
    Realizes 0 s (Logged.halt Stop.depth : Meaning α) m' :=
  ⟨Agrees.halt fun h => by rintro ⟨⟩, Reaches.zero h0⟩

theorem map_bind {g : α → δ} {m' : ℕ → Run δ} {r : ℕ → δ → Run β}
    (h : Realizes N s (m >>= fun a => Pure.pure (g a)) m')
    (hk : ∀ a s', Realizes N s' (k a) fun n => r n (g a)) :
    Realizes N s (m >>= k) fun n => m' n >>= r n :=
  ⟨h.agrees.map_bind fun a s' => (hk a s').agrees,
    h.reaches.map_bind fun a s' => (hk a s').reaches⟩

theorem congr_left {m₁ : Meaning α} (h : Realizes N s m m') (hm : m₁ s = m s) :
    Realizes N s m₁ m' :=
  ⟨h.agrees.congr_left hm, h.reaches.congr_left hm⟩

theorem congr (h : Realizes N s m m') (hm : ∀ n, m₁' n s = m' n s) : Realizes N s m m₁' :=
  ⟨h.agrees.congr hm, h.reaches.congr hm⟩

theorem bind {r : ℕ → α → Run β} (h : Realizes N s m m')
    (hk : ∀ a s', Realizes N s' (k a) fun n => r n a) :
    Realizes N s (m >>= k) fun n => m' n >>= r n :=
  map_bind (g := id) (h.congr_left (congrFun (bind_pure m) s)) hk

/-- One step more, which may emit fetches and nothing else that is seen. -/
theorem succ (h : Realizes N s m m') (h0 : m₁' 0 s = ⟨[], .error .fuel⟩)
    (hm : ∀ n, (m₁' (n + 1) s).seen Event.shown = (m' n s).seen Event.shown) :
    Realizes (N + 1) s m m₁' :=
  ⟨h.agrees.succ hm, h.reaches.succ h0 hm⟩

theorem step (h : Realizes N s m m') (h0 : m₁' 0 s = ⟨[], .error .fuel⟩)
    (hm : ∀ n, (m₁' (n + 1) s).seen Event.shown = (m' n s).seen Event.shown) :
    Realizes N s m m₁' :=
  ⟨h.agrees.succ hm, (h.succ h0 hm).reaches.mono (Nat.le_succ N)⟩

end Realizes

section

variable {N : ℕ} {env : Env} {func : FwModuleFunc} {p q r last : ℕ} {s : Machine}

/-! ## The loop

A meaning of a loop is where it ends. Like any meaning it is put together from the front: a cursor
at the end of the window is the end, and a round is put in front of what follows. -/

/-- The loop from a cursor comes to a meaning, which says where the loop ends and with which cursor.
-/
def Loops (N : ℕ) (env : Env) (func : FwModuleFunc) (body : FwStr) (s : Machine)
    (m : Meaning LoopExit) : Prop :=
  Realizes N s m fun n => (interp env n).loop func body

/-- The cursor is at the end of the window or behind it, and the loop ends there. -/
theorem loops_done (h : last ≤ p) : Loops N env func ⟨p, last⟩ s (pure (.done ⟨p, last⟩)) :=
  (Realizes.pure (LoopExit.done ⟨p, last⟩)).step rfl fun n => by
    simp only [interp, dispatchLoop]
    rw [if_neg (Nat.not_lt.mpr h)]

/-- A round of the loop over an opcode with a handler (`hop`, `hmax`), and what follows. The fetch
that it logs is not seen. -/
theorem Loops.round {fn : RunFn} {m : Meaning LoopExit} (hlt : p < last)
    (hop : (commonInstrHandler (env.mem p)).run = some fn) (hmax : env.mem p < fwInstrMax)
    (h : Realizes N s m fun n =>
      fn.run env (interp env n) func ⟨p + 1, last⟩ >>= fun x => (interp env n).loop func x.2) :
    Loops N env func ⟨p, last⟩ s m :=
  h.step rfl fun n => by
    have hi : fwGetInstr (env.mem p) = some (commonInstrHandler (env.mem p)) :=
      if_neg (UInt8.not_le.mpr hmax)
    simp only [interp]
    rw [dispatch_of_row hlt hi hop]
    rfl

/-! ## Code in the loop

Code does not end a loop, it leads to a place in it: whatever the loop comes to from there, it comes
to from the first byte of the code. Unless the code returned from the function; then the loop ends
behind its window. -/

/-- What follows code in a loop: nothing when it returned. -/
def thenLoop (func : FwModuleFunc) (last : ℕ) (k : Meaning LoopExit) (returned : Bool) :
    Meaning LoopExit :=
  if returned then pure (.done ⟨func.body.last, last⟩) else k

/-- The loop from `p` does what `m` says and goes on at `q`, unless `m` returned. -/
def Leads (N : ℕ) (env : Env) (func : FwModuleFunc) (last p q : ℕ) (m : Meaning Bool) : Prop :=
  ∀ k : Meaning LoopExit, (∀ s, Loops N env func ⟨q, last⟩ s k) →
    ∀ s, Loops N env func ⟨p, last⟩ s (m >>= thenLoop func last k)

theorem leads_nil : Leads N env func last p p (pure false) := fun k hk s => by
  rw [pure_bind]
  exact hk s

/-- Code, and code behind it. The second one starts where the first one leads to. -/
theorem Leads.andThen {m m' : Meaning Bool} (h : Leads N env func last p q m)
    (h' : Leads N env func last q r m') : Leads N env func last p r (andThen m m') := by
  intro k hk s
  have heq : FastWasm.andThen m m' >>= thenLoop func last k =
      m >>= thenLoop func last (m' >>= thenLoop func last k) := by
    rw [FastWasm.andThen, bind_assoc]
    refine congrArg _ (funext fun returned => ?_)
    cases returned with
    | true => exact pure_bind ..
    | false => rfl
  rw [heq]
  exact h _ (h' k hk) s

/-- A computation in front of code. It never returns from the function, so the loop goes on with the
code. -/
theorem thenLoop_bind {α : Type} (m : Meaning α) (f : α → Meaning Bool) (k : Meaning LoopExit) :
    (m >>= f) >>= thenLoop func last k = m >>= fun a => f a >>= thenLoop func last k :=
  bind_assoc ..

/-! ## Straight-line instructions

These do not look at their window, apart from where their immediates end, so it plays no role
whether the loop is that of a branch or of the function. A `return` does: it puts the cursor at
the end that the frame has, and the window of a branch ends before that. -/

/-- `_fw_module_run_func` on the function with an index. -/
def fwCall (env : Env) (r : Interp) (idx : ℕ) : Run Status :=
  match env.funcs[idx]? with
  | none => halt (.fault .funcIdx)
  | some ifunc => r.func ifunc

/-- The functions come to what the calls mean. It is the induction hypothesis on the depth, and all
that the code of a function needs of the others. -/
def Answers (N : ℕ) (env : Env) (call : ℕ → Meaning Status) : Prop :=
  ∀ idx s, Realizes N s (call idx) fun n => fwCall env (interp env n) idx

/-- A call through a `NULL` handler, which both sides take for a fault of the program. -/
theorem leads_null (hlt : p < last) (hop : (commonInstrHandler (env.mem p)).run = none)
    (hmax : env.mem p < fwInstrMax) :
    Leads N env func last p q (halt (.halt (.fault .nullHandler))) := by
  intro k _ s
  rw [halt_bind]
  refine (Realizes.halt (.fault .nullHandler)).step rfl fun n => ?_
  have hi : fwGetInstr (env.mem p) = some (commonInstrHandler (env.mem p)) :=
    if_neg (UInt8.not_le.mpr hmax)
  simp only [interp, dispatchLoop]
  rw [if_pos hlt, fwStrGet8_of_lt hlt]
  simp only [get_bind_apply, emit_bind_apply, hi, hop]
  rfl

/-- A straight-line instruction in the loop, whose immediates the handler takes to the last byte
(`htakes`). -/
theorem leads_leaf {fn : RunFn} {imm : List UInt8} (hleaf : fn.isLeaf = true)
    (hop : (commonInstrHandler (env.mem p)).run = some fn) (hmax : env.mem p < fwInstrMax)
    (htakes : fn.decoder.Takes imm) (hm : Holds env.mem (p + 1) imm)
    (hlast : p + 1 + imm.length ≤ last) :
    Leads N env func last p (p + 1 + imm.length)
      (do let _ ← Run.meaning (fn.leafRun imm); pure false) := by
  intro k hk s
  rw [thenLoop_bind]
  refine .round (by omega) hop hmax (Realizes.congr (Realizes.bind (.run (fn.leafRun imm))
    (k := fun _ => pure false >>= thenLoop func last k)
    (r := fun n _ => (interp env n).loop func ⟨p + 1 + imm.length, last⟩) fun _ s' => ?_)
    fun n => ?_)
  · rw [pure_bind]
    exact hk s'
  · simp only [leaf_eq hleaf env _ func htakes hm hlast, bind_assoc, pure_bind]

/-- A `return` does the same wherever it is, but for the cursor. -/
theorem return_eq (func : FwModuleFunc) (body body' : FwStr) (s : Machine) :
    fwInstrRunReturn func body s = (do
      let x ← fwInstrRunReturn func body'
      pure (x.1, ⟨s.ctx.frame.fin, body.last⟩) : Run (Status × FwStr)) s := by
  obtain ⟨i, hi⟩ := fwInstrRunReturn_apply func s
  have hbind : ∀ {m m' : Run (Status × FwStr)} (f : Status × FwStr → Run (Status × FwStr)),
      m s = m' s → (m >>= f) s = (m' >>= f) s := fun f h => by rw [bind_apply, h, ← bind_apply]
  rw [hi, hbind _ (hi body')]
  simp only [bind_assoc, pure_bind]

/-- A `return` in the loop. The window may be that of a branch (`hbody`). -/
theorem leads_return (call : ℕ → Meaning Status)
    (hop : (commonInstrHandler (env.mem p)).run = some .return_) (hmax : env.mem p < fwInstrMax)
    (hlt : p < last) (hbody : last ≤ func.body.last) (imm : List UInt8) :
    Leads N env func last p q (RunFn.denote call func imm .return_) := by
  intro k _ s
  rw [RunFn.denote, thenLoop_bind]
  refine .round hlt hop hmax (Realizes.congr_left ?_ (get_bind_apply _ s))
  by_cases hframe : s.ctx.frame.fin ≠ func.body.last
  · rw [if_pos hframe, halt_bind]
    exact .stray
  · rw [if_neg hframe, thenLoop_bind]
    refine Realizes.congr (Realizes.bind (.run (fwInstrRunReturn func func.body))
      (r := fun n _ => (interp env n).loop func ⟨func.body.last, last⟩) fun x s' => ?_)
      fun n => ?_
    · rw [pure_bind]
      exact loops_done hbody
    · rw [RunFn.run, bind_apply, return_eq func ⟨p + 1, last⟩ func.body, ← bind_apply, bind_assoc]
      simp only [pure_bind, not_not.mp hframe]

/-- A call in the loop. The function is looked up by its index on both sides, and an index out of
range is a fault. -/
theorem leads_call {call : ℕ → Meaning Status} (hcall : Answers N env call) {imm : List UInt8}
    (hop : (commonInstrHandler (env.mem p)).run = some .call) (hmax : env.mem p < fwInstrMax)
    (htakes : RunFn.call.decoder.Takes imm) (hm : Holds env.mem (p + 1) imm)
    (hlast : p + 1 + imm.length ≤ last) :
    Leads N env func last p (p + 1 + imm.length) (RunFn.denote call func imm .call) := by
  intro k hk s
  rw [RunFn.denote, thenLoop_bind]
  refine .round (by omega) hop hmax (Realizes.congr (Realizes.bind (hcall _ s)
    (r := fun n status => if status = .err then do
        emit .err
        (interp env n).loop func ⟨p + 1 + imm.length, last⟩
      else (interp env n).loop func ⟨p + 1 + imm.length, last⟩) fun status s₁ => ?_)
    fun n => ?_)
  · cases status with
    | err =>
      rw [thenLoop_bind]
      refine Realizes.bind (Realizes.emit .err) fun _ s₂ => ?_
      rw [pure_bind]
      exact hk s₂
    | ok =>
      rw [pure_bind]
      exact hk s₁
  · have hcalls : RunFn.run env (interp env n) func ⟨p + 1, last⟩ .call = (do
        let status ← fwCall env (interp env n) (lebBits imm 0 0).toUInt32.toNat
        if status = .err then do
          Logged.emit .err
          pure (.err, ⟨p + 1 + imm.length, last⟩)
        else pure (.ok, ⟨p + 1 + imm.length, last⟩)) := by
      rw [RunFn.run, fwInstrRunCall, readLeb_of_got (getu32_of_encoding htakes hm hlast), fwCall]
      cases env.funcs[(lebBits imm 0 0).toUInt32.toNat]? with
      | none => exact (halt_bind ..).symm
      | some ifunc =>
        refine congrArg ((interp env n).func ifunc >>= ·) (funext fun status => ?_)
        cases status with
        | err => rfl
        | ok => rfl
    rw [hcalls, bind_assoc]
    refine congrFun (congrArg _ (funext fun status => ?_)) s
    by_cases herr : status = .err
    · rw [if_pos herr, if_pos herr, bind_assoc]
      simp only [pure_bind]
    · rw [if_neg herr, if_neg herr]
      exact pure_bind ..

/-- The meaning of a straight-line handler is what it does once its immediates are read, and it does
not return from the function. -/
theorem denote_leaf {fn : RunFn} (hleaf : fn.isLeaf = true) (call : ℕ → Meaning Status)
    (imm : List UInt8) :
    fn.denote call func imm = (do let _ ← Run.meaning (fn.leafRun imm); pure false) := by
  cases fn with
  | block | loop | if_ | else_ | end_ | return_ | call => exact absurd hleaf (by decide)
  | drop | select | localGet | localSet | localTee | i32Const | i64Const | f32Const | f64Const
  | i32Eqz | i32Eq | i32Ne | gtS => rfl

/-- An instruction that is not a construct, by the three kinds that there are: straight-line,
`return` and `call`. -/
theorem leads_instr {call : ℕ → Meaning Status} (hcall : Answers N env call) {op : UInt8}
    {imm : List UInt8} (hstraight : StraightAsRead op imm) (hop : env.mem p = op)
    (hm : Holds env.mem (p + 1) imm) (hlast : p + 1 + imm.length ≤ last)
    (hbody : last ≤ func.body.last) :
    Leads N env func last p (p + 1 + imm.length)
      ((commonInstrHandler op).run.elim (halt (.halt (.fault .nullHandler)))
        (RunFn.denote call func imm)) := by
  obtain ⟨instr, fn', hi, hc, htakes⟩ := hstraight
  rw [fwGetInstr] at hi
  split at hi
  · cases hi
  next hmax =>
  obtain rfl := Option.some.inj hi
  subst hop
  have hmax : env.mem p < fwInstrMax := UInt8.not_le.mp hmax
  cases hrun : (commonInstrHandler (env.mem p)).run with
  | none => exact leads_null (by omega) hrun hmax
  | some fn =>
    obtain rfl : fn' = fn.decoder := Option.some.inj (hc.symm.trans (row_decoder hrun))
    rw [Option.elim_some]
    cases fn with
    | block | loop | if_ | else_ | end_ => exact htakes.elim
    | return_ => exact leads_return call hrun hmax (by omega) hbody imm
    | call => exact leads_call hcall hrun hmax htakes hm hlast
    | drop | select | localGet | localSet | localTee | i32Const | i64Const | f32Const | f64Const
    | i32Eqz | i32Eq | i32Ne | gtS =>
      rw [denote_leaf rfl]
      exact leads_leaf rfl hrun hmax htakes hm hlast

/-! ## Constructs

The construct of a tree is found in the block table by the position behind its block type, and what
is found says where its `else` and its `end` are. Behind an `if` with a condition of the wrong type
the loop goes on in its own branches, `else` and `end` included. -/

/-- An `end` in the loop, whose handler does nothing. The label of the block stays on the stack. -/
theorem leads_end (hlt : p < last) (hop : env.mem p = fwInstrEnd) :
    Leads N env func last p (p + 1) (pure false) := by
  intro k hk s
  have hrun : (commonInstrHandler (env.mem p)).run = some .end_ := by rw [hop]; rfl
  rw [pure_bind]
  refine .round hlt hrun (by rw [hop]; decide) (Realizes.congr (hk s) fun n => ?_)
  exact congrFun (pure_bind ((Status.ok, ⟨p + 1, last⟩) : Status × FwStr) _) s

/-- An `else` in the loop, which an `if` with a condition of the wrong type leads to. -/
theorem leads_else (hlt : p < last) (hop : env.mem p = fwInstrElse) :
    Leads N env func last p (p + 1) (do Run.meaning elseRun; pure false) := by
  intro k hk s
  have hrun : (commonInstrHandler (env.mem p)).run = some .else_ := by rw [hop]; rfl
  rw [thenLoop_bind]
  refine .round hlt hrun (by rw [hop]; decide) (Realizes.congr (Realizes.bind (.run elseRun)
    (r := fun n _ => (interp env n).loop func ⟨p + 1, last⟩) fun _ s' => ?_) fun n => ?_)
  · rw [pure_bind]
    exact hk s'
  · rw [RunFn.run, fwInstrRunElse, elseRun, bind_assoc, bind_assoc]
    refine congrFun (congrArg _ (funext fun st => ?_)) s
    by_cases htype : st.type ≠ fwInstrIf
    · rw [if_pos htype, if_pos htype, bind_assoc]
      simp only [pure_bind]
    · -- no push tags a slot so, and leaves it a block
      rw [if_neg htype, if_neg htype, st.noIf (not_not.mp htype), halt_bind]
      exact halt_bind ..

/-- The opening of a `block` or `loop` in the loop, which pushes a label. A `loop` pushes one too,
and nothing ever goes back to it. -/
theorem leads_label {loop : Bool} {bt : List UInt8} {c : Construct}
    (hop : env.mem p = blockCode loop) (hbt : Leb128.Encoding 5 bt) (hm : Holds env.mem (p + 1) bt)
    (hlast : p + 1 + bt.length ≤ last) (hstart : c.start = p + 1 + bt.length)
    (hfind : fwInstrFindBlk func.blks c.start = some c.block) :
    Leads N env func last p c.start (do
      Run.meaning (fwPush (labelSlot loop bt p c))
      pure false) := by
  intro k hk s
  rw [thenLoop_bind]
  have hmax : env.mem p < fwInstrMax := by rw [hop]; cases loop <;> decide
  obtain ⟨fn, hrun, heq⟩ : ∃ fn, (commonInstrHandler (env.mem p)).run = some fn ∧
      ∀ r, fn.run env r func ⟨p + 1, last⟩ = (do
        fwPush (labelSlot loop bt p c)
        pure (.err, ⟨c.start, last⟩) : Run (Status × FwStr)) := by
    rw [hop]
    cases loop with
    | false =>
      refine ⟨.block, rfl, fun r => ?_⟩
      rw [RunFn.run, fwInstrRunBlock, readLeb_of_got (getu32_of_encoding hbt hm hlast)]
      simp only [← hstart, hfind]
      rfl
    | true =>
      refine ⟨.loop, rfl, fun r => ?_⟩
      rw [RunFn.run, fwInstrRunLoop, hstart]
      exact readLeb_of_got (getu32_of_encoding hbt hm hlast)
  refine .round (by omega) hrun hmax (Realizes.congr (Realizes.bind
    (Realizes.run (fwPush (labelSlot loop bt p c)))
    (r := fun n _ => (interp env n).loop func ⟨c.start, last⟩) fun _ s' => ?_) fun n => ?_)
  · rw [pure_bind]
    exact hk s'
  · simp only [heq, bind_assoc, pure_bind]

/-- Where an `if` goes on behind its branch: at its end, or, behind a `return`, where the branch has
put the cursor. -/
def ifExit (body : FwStr) (fin : ℕ) : LoopExit → Run (Status × FwStr)
  | .done branch =>
    pure (.ok, { body with pos := if branch.pos > branch.last then branch.pos else fin })
  | .badOpcode => do
    emit .err
    pure (.err, body)
  | .strErr => pure (.err, body)

/-- `fw_instr_run_if` at a construct that is found, with the branch left open. The start of the
entry is the byte behind the block type, and `els` and `fin` are there, so only the type of the
condition can still be wrong. -/
theorem runIf_eq (r : Interp) {bt : List UInt8} {c : Construct} (hbt : Leb128.Encoding 5 bt)
    (hm : Holds env.mem p bt) (hlast : p + bt.length ≤ last) (hstart : c.start = p + bt.length)
    (hfind : fwInstrFindBlk func.blks c.start = some c.block) :
    fwInstrRunIf env r func ⟨p, last⟩ = (do
      let cond ← fwPop false
      if cond.type ≠ fwI32 then do
        emit .err
        pure (.err, ⟨c.start, last⟩)
      else do
        let exit ← r.loop func (if cond.val ≠ 0 then ⟨c.start, c.els - 1⟩ else ⟨c.els, c.fin⟩)
        ifExit ⟨c.start, last⟩ c.fin exit) := by
  rw [fwInstrRunIf, readLeb_of_got (getu32_of_encoding hbt hm hlast)]
  simp only [← hstart, hfind]
  refine congrArg _ (funext fun cond => ?_)
  by_cases htype : cond.type ≠ fwI32
  · rw [if_pos htype, if_pos htype]
  · rw [if_neg htype, if_neg htype, if_neg (not_not.mpr (start_of_find hfind))]
    simp only [Construct.block]
    refine congrArg _ (funext fun exit => ?_)
    cases exit with
    | done branch =>
      by_cases hpos : branch.pos > branch.last
      · simp only [ifExit, if_pos hpos]
      · simp only [ifExit, if_neg hpos]
    | badOpcode | strErr => rfl

/-- A branch that an `if` runs in a loop of its own, and what follows it. The window of the branch
ends before the body does (`hw`), so a `return` is seen by its cursor. -/
theorem realizes_branch {m : Meaning Bool} {k : Meaning LoopExit} {start fin w : ℕ}
    (hm : Leads N env func w q w m) (hw : w < func.body.last) (hbody : last ≤ func.body.last)
    (hk : ∀ s, Loops N env func ⟨fin, last⟩ s k) (s : Machine) :
    Realizes N s (m >>= thenLoop func last k) fun n =>
      (interp env n).loop func ⟨q, w⟩ >>= fun exit =>
        ifExit ⟨start, last⟩ fin exit >>= fun x => (interp env n).loop func x.2 := by
  have hloop := hm _ (fun _ => loops_done (Nat.le_refl w)) s
  have hexit : thenLoop func w (pure (.done ⟨w, w⟩)) = fun returned =>
      pure (.done ⟨if returned then func.body.last else w, w⟩) := by
    funext returned
    cases returned <;> rfl
  rw [hexit] at hloop
  refine hloop.map_bind fun returned s' => Realizes.congr ?_ fun n =>
    congrFun (pure_bind (_ : Status × FwStr) _) s'
  cases returned with
  | true =>
    simp only [if_true, gt_iff_lt, if_pos hw]
    exact loops_done hbody
  | false =>
    simp only [Bool.false_eq_true, if_false, gt_iff_lt, Nat.lt_irrefl]
    exact hk s'

/-- An `if` in the loop: a branch in a loop of its own, or, with a condition of the wrong type, all
that is up to the end of the `if`. -/
theorem leads_if {bt : List UInt8} {c : Construct} {thn els both : Meaning Bool}
    (hop : env.mem p = fwInstrIf) (hbt : Leb128.Encoding 5 bt) (hm : Holds env.mem (p + 1) bt)
    (hlast : p + 1 + bt.length ≤ last) (hstart : c.start = p + 1 + bt.length)
    (hfind : fwInstrFindBlk func.blks c.start = some c.block) (hbody : last ≤ func.body.last)
    (helsfin : c.els ≤ c.fin) (hfin : c.fin < func.body.last)
    (hthn : Leads N env func (c.els - 1) c.start (c.els - 1) thn)
    (hels : Leads N env func c.fin c.els c.fin els)
    (hboth : Leads N env func last c.start c.fin both) :
    Leads N env func last p c.fin (do
      let cond ← Run.meaning (fwPop false)
      if cond.type ≠ fwI32 then do
        emit .err
        both
      else if cond.val ≠ 0 then thn else els) := by
  intro k hk s
  rw [thenLoop_bind]
  have hrun : (commonInstrHandler (env.mem p)).run = some .if_ := by rw [hop]; rfl
  refine .round (by omega) hrun (by rw [hop]; decide) (Realizes.congr (Realizes.bind
    (Realizes.run (fwPop false)) (r := fun n cond => (if cond.type ≠ fwI32 then do
        emit .err
        (interp env n).loop func ⟨c.start, last⟩
      else (interp env n).loop func
          (if cond.val ≠ 0 then ⟨c.start, c.els - 1⟩ else ⟨c.els, c.fin⟩) >>= fun exit =>
        ifExit ⟨c.start, last⟩ c.fin exit >>= fun x => (interp env n).loop func x.2))
    fun cond s₁ => ?_) fun n => ?_)
  · by_cases htype : cond.type ≠ fwI32
    · simp only [if_pos htype]
      rw [thenLoop_bind]
      exact Realizes.bind (Realizes.emit .err) fun _ s₂ => hboth k hk s₂
    · simp only [if_neg htype]
      by_cases hval : cond.val ≠ 0
      · simp only [if_pos hval]
        exact realizes_branch hthn (by omega) hbody hk s₁
      · simp only [if_neg hval]
        exact realizes_branch hels hfin hbody hk s₁
  · rw [RunFn.run, runIf_eq _ hbt hm hlast hstart hfind, bind_assoc]
    refine congrFun (congrArg _ (funext fun cond => ?_)) s
    rw [ite_bind, bind_assoc]
    simp only [pure_bind, bind_assoc]

/-! ## Trees

One case for each constructor, from what the parts lead to. -/

/-- Wherever the tree lies, the loop over its bytes comes to what it means. The window `last` is
that of the loop: a branch of an enclosing `if`, or the whole function. -/
def LeadsCode (N : ℕ) (env : Env) (func : FwModuleFunc) (call : ℕ → Meaning Status)
    (code : Code) : Prop :=
  ∀ {p last : ℕ}, code.AsRead → Holds env.mem p code.encode →
    p + code.encode.length ≤ last → last ≤ func.body.last →
    p + code.encode.length < func.body.last → Tabled func.blks (code.constructs p) →
    Leads N env func last p (p + code.encode.length) (code.denote call func p)

namespace LeadsCode

variable {call : ℕ → Meaning Status} {op : UInt8} {imm bt : List UInt8} {loop : Bool}
  {inner thn els rest : Code}

theorem nil : LeadsCode N env func call .nil := fun _ _ _ _ _ _ => leads_nil

theorem instr (hcall : Answers N env call) (hr : LeadsCode N env func call rest) :
    LeadsCode N env func call (.instr op imm rest) := by
  rintro p last ⟨hstraight, hwf⟩ hm hlast hbody hlt htabled
  simp only [Code.encode, holds_cons, holds_append] at hm
  rw [Code.end_instr] at hlast hlt ⊢
  exact (leads_instr hcall hstraight hm.1 hm.2.1 (by omega) hbody).andThen
    (hr hwf hm.2.2 hlast hbody hlt htabled)

theorem block (hi : LeadsCode N env func call inner) (hr : LeadsCode N env func call rest) :
    LeadsCode N env func call (.block loop bt inner rest) := by
  rintro p last ⟨hbt, hwfi, hwfr⟩ hm hlast hbody hlt htabled
  simp only [Code.encode, holds_cons, holds_append] at hm
  obtain ⟨hop, hmbt, hmi, hend, hmr⟩ := hm
  rw [Code.end_block] at hlast hlt ⊢
  rw [Code.constructs, Tabled, List.forall_mem_cons, List.forall_mem_append] at htabled
  obtain ⟨hfind, htabledi, htabledr⟩ := htabled
  have hinner := (hi hwfi hmi (by omega : _ ≤ last) hbody (by omega) htabledi).andThen
    (leads_end (by omega) hend)
  rw [andThen_nil] at hinner
  have hblock := (leads_label hop hbt hmbt (by omega : _ ≤ last) rfl hfind).andThen hinner
  rw [andThen_of_run] at hblock
  exact hblock.andThen (hr hwfr hmr hlast hbody hlt htabledr)

theorem ifThen (ht : LeadsCode N env func call thn) (hr : LeadsCode N env func call rest) :
    LeadsCode N env func call (.ifThen bt thn rest) := by
  rintro p last ⟨hbt, hwft, hwfr⟩ hm hlast hbody hlt htabled
  simp only [Code.encode, holds_cons, holds_append] at hm
  obtain ⟨hop, hmbt, hmt, hend, hmr⟩ := hm
  rw [Code.end_ifThen] at hlast hlt ⊢
  rw [Code.constructs, Tabled, List.forall_mem_cons, List.forall_mem_append] at htabled
  obtain ⟨hfind, htabledt, htabledr⟩ := htabled
  -- in its own loop, the branch ends before the `end`, and without one nothing is left of the loop
  have hthn := ht hwft hmt (Nat.le_refl _) (by omega) (by omega) htabledt
  have hboth := (ht hwft hmt (by omega : _ ≤ last) hbody (by omega) htabledt).andThen
    (leads_end (by omega) hend)
  rw [andThen_nil] at hboth
  exact (leads_if hop hbt hmbt (by omega) rfl hfind hbody (Nat.le_refl _) (by dsimp only; omega)
    hthn leads_nil hboth).andThen (hr hwfr hmr hlast hbody hlt htabledr)

theorem ifElse (ht : LeadsCode N env func call thn) (he : LeadsCode N env func call els)
    (hr : LeadsCode N env func call rest) :
    LeadsCode N env func call (.ifElse bt thn els rest) := by
  rintro p last ⟨hbt, hwft, hwfe, hwfr⟩ hm hlast hbody hlt htabled
  simp only [Code.encode, holds_cons, holds_append] at hm
  obtain ⟨hop, hmbt, hmt, helse, hme, hend, hmr⟩ := hm
  rw [Code.end_ifElse] at hlast hlt ⊢
  rw [Code.constructs, Tabled, List.forall_mem_cons, List.forall_mem_append,
    List.forall_mem_append] at htabled
  obtain ⟨hfind, ⟨htabledt, htablede⟩, htabledr⟩ := htabled
  have hthn := ht hwft hmt (Nat.le_refl _) (by omega) (by omega) htabledt
  -- the loop over the else-branch has the `end` in it
  have hels := (he hwfe hme (Nat.le_add_right _ 1) (by omega) (by omega) htablede).andThen
    (leads_end (Nat.lt_succ_self _) hend)
  rw [andThen_nil] at hels
  have helse' := (leads_else (by omega : _ < last) helse).andThen
    ((he hwfe hme (by omega : _ ≤ last) hbody (by omega) htablede).andThen
      (leads_end (by omega) hend))
  rw [andThen_nil, andThen_of_run] at helse'
  have hboth := (ht hwft hmt (by omega : _ ≤ last) hbody (by omega) htabledt).andThen helse'
  exact (leads_if hop hbt hmbt (by omega) rfl hfind hbody (by dsimp only; omega)
    (by dsimp only; omega) hthn hels hboth).andThen (hr hwfr hmr hlast hbody hlt htabledr)

end LeadsCode

/-- The loop over the bytes of any tree, by induction on the tree. -/
theorem leads_code {call : ℕ → Meaning Status} (hcall : Answers N env call) (code : Code) :
    LeadsCode N env func call code := by
  induction code with
  | nil => exact LeadsCode.nil
  | instr op imm rest ihr => exact LeadsCode.instr hcall ihr
  | block loop bt inner rest ihi ihr => exact LeadsCode.block ihi ihr
  | ifThen bt thn rest iht ihr => exact LeadsCode.ifThen iht ihr
  | ifElse bt thn els rest iht ihe ihr => exact LeadsCode.ifElse iht ihe ihr

/-- The loop over the body of a function. Behind the tree there is the `end` of the function, and
nothing else. -/
theorem loops_body {call : ℕ → Meaning Status} (hcall : Answers N env call) {code : Code}
    (h : Encodes env.mem func code) (s : Machine) :
    Loops N env func func.body s (code.denote call func func.body.pos >>= fun _ =>
      pure (.done ⟨func.body.last, func.body.last⟩)) := by
  obtain ⟨hwf, hm, hlast, htabled⟩ := h
  rw [Code.body, holds_append] at hm
  obtain ⟨hm, hend, -⟩ := hm
  rw [Code.body, List.length_append, List.length_singleton] at hlast
  have hcode := (leads_code hcall code hwf hm (by omega : _ ≤ func.body.last) (Nat.le_refl _)
    (by omega) htabled).andThen (leads_end (by omega) hend)
  rw [andThen_nil] at hcode
  have hloop := hcode _ (fun _ => loops_done (by omega)) s
  have hk : thenLoop func func.body.last (pure (.done ⟨func.body.pos + code.encode.length + 1,
      func.body.last⟩)) = fun _ => pure (.done ⟨func.body.last, func.body.last⟩) := by
    funext returned
    cases returned with
    | true => rfl
    | false =>
      rw [show func.body.pos + code.encode.length + 1 = func.body.last by omega]
      rfl
  rwa [hk] at hloop

/-! ## Functions

A call costs one level of depth on the one side and at least one step on the other. The functions of
a program call each other by index, so what is known of all calls at one depth gives what is known
of every function at the next. -/

/-- A function does what it means, when those that it calls do. One step is for the function itself.
-/
theorem func_adequate (f : Coded env.mem) {call : ℕ → Meaning Status} (hcall : Answers N env call)
    (s : Machine) : Realizes (N + 1) s (f.denote env call) fun n => (interp env n).func f.func := by
  suffices h : Realizes N s (f.denote env call) fun n =>
      _fwModuleRunFunc env (interp env n) f.func by
    exact h.succ rfl fun n => rfl
  rw [Coded.denote]
  cases hhost : f.func.hostAddr with
  | some addr =>
    exact (Realizes.run (fwModuleRunHostFunc env f.func addr)).congr fun n => by
      rw [_fwModuleRunFunc, hhost]
  | none =>
    refine Realizes.congr (Realizes.bind (.run (fwEnterFunc env f.func))
      (r := fun n save => (interp env n).loop f.func f.func.body >>= fwLeaveFunc save)
      fun save s₁ => ?_) fun n => by rw [_fwModuleRunFunc, hhost]
    exact (loops_body hcall (f.encodes hhost) s₁).map_bind fun _ _ => .run _

/-- Every call does what it means, by induction on the depth of the calls. -/
theorem answers_call {prog : List (Coded env.mem)} (hprog : env.funcs = prog.map Coded.func) :
    ∀ depth, Answers depth env (callDenote env prog depth) := by
  have hfunc : ∀ idx, env.funcs[idx]? = prog[idx]?.map Coded.func := fun idx => by
    rw [hprog, List.getElem?_map]
  intro depth
  induction depth with
  | zero =>
    intro idx s
    simp only [callDenote, fwCall, hfunc]
    cases prog[idx]? with
    | none => exact .halt (.fault .funcIdx)
    | some f => exact .depth rfl
  | succ depth ih =>
    intro idx s
    simp only [callDenote, fwCall, hfunc]
    cases prog[idx]? with
    | none => exact .halt (.fault .funcIdx)
    | some f => exact func_adequate f ih s

/-- A run of a function from outside does what it means: the arguments are pushed, the function is
called, and a result is popped when one is asked for. -/
theorem run_adequate {prog : List (Coded env.mem)} (hprog : env.funcs = prog.map Coded.func)
    (depth : ℕ) (f : Coded env.mem) (args : List (List UInt8)) (rets : Bool) (s : Machine) :
    Realizes (depth + 1) s (f.runDenote env prog depth args rets) fun n =>
      fwModuleRunFunc env n f.func args rets := by
  simp only [Coded.runDenote, fwModuleRunFunc]
  by_cases hargs : f.func.functype.paramCnt.toNat > args.length
  · simp only [if_pos hargs]
    exact .pure _
  · simp only [if_neg hargs]
    refine .bind (.run _) fun _ s₁ => .bind (func_adequate f (answers_call hprog depth) s₁)
      fun status s₂ => ?_
    cases status with
    | err => exact .pure _
    | ok =>
      by_cases hrets : rets ∧ f.func.functype.resCnt ≠ 0
      · simp only [if_pos hrets]
        exact .bind (.run _) fun wrets s₃ => .pure _
      · simp only [if_neg hrets]
        exact .pure _

end

end FastWasm
