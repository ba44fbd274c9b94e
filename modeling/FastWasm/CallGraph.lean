import FastWasm.Programs

/-!
# Programs that have a meaning

Two checks on the text of a program. Where no `return` stands behind a call of a wasm function, no
`return` leaves for another function than its own, so runs end exactly when calls nest to some depth
(`run_ends_iff`). Where the calls of every function go down in some order as well, every run ends
(`ranked_ends`).

A program is a list of functions with syntax trees for their bodies (`Coded`): the bytes of a body
are those of its tree, the immediates are such that the handlers read them as they are written, and
the block table is the one that the constructs of the tree give. The environment runs the functions
of the program and no others (`hprog`).

The first check is made with the meaning of the program, in which a `return` for another function is
the outcome `stray`. A triple over the frame says that it does not come to that: before the first
call of a wasm function the frame is that of the function, and behind one there is no `return`. The
second is by induction on the rank.
-/

namespace FastWasm

open Logged

/-! ## The checks

Both are functions of the code, and look at nothing but opcodes and the indices of calls. -/

/-- The index that the immediate of a `call` or of an access to a local gives. -/
def immIdx (imm : List UInt8) : ℕ := (lebBits imm 0 0).toUInt32.toNat

namespace Code

/-- Goes through code, `called` saying whether a wasm function was called before: whether one was
called behind it, and `none` at a `return` behind such a call. The two branches of an `if` are taken
to happen both. -/
def returnsFirst (wasm : ℕ → Bool) : Code → Bool → Option Bool
  | .nil, called => some called
  | .instr op imm rest, called =>
    if (commonInstrHandler op).run = some .return_ then
      if called then none else rest.returnsFirst wasm called
    else if (commonInstrHandler op).run = some .call then
      rest.returnsFirst wasm (called || wasm (immIdx imm))
    else rest.returnsFirst wasm called
  | .block _ _ inner rest, called | .ifThen _ inner rest, called =>
    (inner.returnsFirst wasm called).bind (rest.returnsFirst wasm)
  | .ifElse _ thn els rest, called =>
    ((thn.returnsFirst wasm called).bind (els.returnsFirst wasm)).bind (rest.returnsFirst wasm)

/-- The indices of the functions that code calls, in all its branches, whether they are ever reached
or not. -/
def callees : Code → List ℕ
  | .nil => []
  | .instr op imm rest =>
    if (commonInstrHandler op).run = some .call then immIdx imm :: rest.callees else rest.callees
  | .block _ _ inner rest | .ifThen _ inner rest => inner.callees ++ rest.callees
  | .ifElse _ thn els rest => thn.callees ++ els.callees ++ rest.callees

/-- A call stays one: nothing behind it makes the check forget it. By induction on the tree, through
the code inside of a construct and then through what follows it. -/
theorem called_of_returnsFirst {wasm : ℕ → Bool} (code : Code) :
    ∀ {called called' : Bool}, code.returnsFirst wasm called = some called' →
      called = true → called' = true := by
  induction code with
  | nil =>
    rintro called called' h rfl
    exact (Option.some.inj h).symm
  | instr op imm rest ih =>
    rintro called called' h rfl
    rw [returnsFirst] at h
    split at h
    · cases h
    · split at h
      · exact ih h (Bool.true_or _)
      · exact ih h rfl
  | block _ _ inner rest ihi ihr | ifThen _ inner rest ihi ihr =>
    intro called called' h hcalled
    obtain ⟨_, hi, hr⟩ := Option.bind_eq_some_iff.mp h
    exact ihr hr (ihi hi hcalled)
  | ifElse _ thn els rest iht ihe ihr =>
    intro called called' h hcalled
    obtain ⟨_, h, hr⟩ := Option.bind_eq_some_iff.mp h
    obtain ⟨_, ht, he⟩ := Option.bind_eq_some_iff.mp h
    exact ihr hr (ihe he (iht ht hcalled))

end Code

/-! ## Computations with a meaning

Invariants of meanings are stated with a monitor that accepts everything, since the question is how
a meaning stops and not what it logs. -/

/-- A triple without a monitor: from machines in `P` the meaning ends in `Q`, or stops with a reason
in `H`. -/
abbrev Meets {α : Type} (P : Machine → Prop) (m : Meaning α) (Q : α → Machine → Prop)
    (H : Stop → Prop) : Prop :=
  Triple trivialMonitor (fun _ => P) m (fun a _ => Q a) fun e _ => H e

theorem trivialMonitor_quiet (g : Unit) (e : Event) (_ : e.Quiet) :
    trivialMonitor.ok g e ∧ trivialMonitor.step g e = g := ⟨trivial, rfl⟩

section

variable {P Q R : Machine → Prop} {H : Stop → Prop} {m rest : Meaning Bool}

/-- Code after code. The second is reached only when the first did not return, so that is the only
case to say something about. -/
theorem Meets.andThen (hm : Meets P m (fun returned s => returned = false → R s) H)
    (hrest : Meets R rest (fun returned s => returned = false → Q s) H) :
    Meets P (andThen m rest) (fun returned s => returned = false → Q s) H := by
  refine Triple.bind hm fun returned => ?_
  cases returned with
  | true => exact Triple.pure fun _ _ _ h => (Bool.true_eq_false.mp h).elim
  | false => exact hrest.pre fun _ _ h => h rfl

end

/-- The part of a straight-line handler that does not move the cursor keeps what handlers keep. The
structured instructions have nothing of the kind, as the meaning of a tree spells out what they do.
-/
theorem Stable.leafRun {γ : Type} {M : Monitor γ Event} {I : γ → Machine → Prop}
    {H : Halt → γ → Prop} (h : Stable M I H) (fn : RunFn) (imm : List UInt8) :
    Keeps M I H (fn.leafRun imm) := by
  have hwrite : ∀ idx val, Keeps M I H (do
      let s ← get
      fwLocalsWrite s.ctx.locals idx val
      pure Status.ok) := fun idx val => Triple.get_bind fun s₀ => Triple.bind
    ((h.write s₀.ctx.locals idx val).pre fun _ _ hs => ⟨hs.1, by rw [hs.2]⟩) fun _ => Keeps.pure _
  cases fn with
  | block | loop | if_ | else_ | end_ | return_ | call => exact .pure _
  | drop => exact (h.pop false).bind fun _ => .pure _
  | select =>
    exact (h.pop false).bind fun cond => (h.pop false).bind fun val2 =>
      (h.pop false).bind fun val1 => (h.push _).bind fun _ => .pure _
  | localGet =>
    exact h.room.bind fun _ => (h.read _).bind fun val => (h.push _).bind fun _ => .pure _
  | localSet => exact (h.pop false).bind fun cur => hwrite _ _
  | localTee => exact (h.pop true).bind fun cur => hwrite _ _
  | i32Const | i64Const | f32Const | f64Const => exact (h.push _).bind fun _ => .pure _
  | i32Eqz => exact (h.pop false).bind fun c1 => (h.push _).bind fun _ => .pure _
  | i32Eq | gtS =>
    exact (h.pop false).bind fun c2 => (h.pop false).bind fun c1 => (h.push _).bind fun _ => .pure _
  | i32Ne =>
    exact (h.pop false).bind fun c2 => (h.pop false).bind fun c1 =>
      .ite (fun _ => h.error _) fun _ => (h.push _).bind fun _ => .pure _

theorem Stable.elseRun {γ : Type} {M : Monitor γ Event} {I : γ → Machine → Prop}
    {H : Halt → γ → Prop} (h : Stable M I H) : Keeps M I H elseRun :=
  (h.pop false).bind fun _ => .ite (fun _ => h.err) fun _ => h.halt_fault _

/-! ## Returns

A `return` stops a meaning with `stray` when the frame has another end than the function. The frame
is set when a function is entered, so before any call it is the function's own; behind a call it may
be anything, and there the check has no `return`. -/

/-- The executor may halt so: with a fault or an `exit`, and not for want of steps or of depth, nor
in a function that is not its own. -/
def Stop.Proper (e : Stop) : Prop := e ≠ .stray ∧ e ≠ .halt .fuel

/-- Before a wasm function is called, the frame is that of `func`. Behind a call nothing is known of
it. -/
def FrameIs (func : FwModuleFunc) (called : Bool) (s : Machine) : Prop :=
  called = false → s.ctx.frame.fin = func.body.last

/-- What is known of the frame while no function is entered. -/
theorem frame_stable_proper (J : Frame → Prop) :
    Stable trivialMonitor (fun _ s => J s.ctx.frame) fun e _ => e ≠ .fuel :=
  (stable_frame (J := fun _ => J) trivialMonitor_quiet).noFuel fun _ _ h => h

/-- What the executor keeps, a meaning keeps, when it does not run out of steps. -/
theorem Meets.of_keeps {α : Type} {P : Machine → Prop} {m : Run α}
    (h : Keeps trivialMonitor (fun _ => P) (fun e _ => e ≠ .fuel) m) :
    Meets P m.meaning (fun _ => P) Stop.Proper :=
  Triple.lift h fun _ _ _ _ he => ⟨by rintro ⟨⟩, fun h => he (Stop.halt.inj h)⟩

/-- All that is known is how it halts: for a reason that the executor has, other than the bound. -/
theorem Meets.of_noFuel {α : Type} {m : Run α} (h : NoFuel m) :
    Meets (fun _ => True) m.meaning (fun _ _ => True) Stop.Proper :=
  Meets.of_keeps (h.triple (H := fun _ _ => True) (fun _ _ he => he)
    (Triple.of_closed (S := fun _ => True) (fun _ _ _ => trivial) (fun _ _ _ => trivial)
      (fun _ _ _ => trivial) (fun _ _ _ _ => trivial) fun _ _ _ => trivial))

section

variable {func : FwModuleFunc} {wasm : ℕ → Bool} {call : ℕ → Meaning Status}

/-- A call of a function that is not a wasm function keeps the frame. -/
def CallsKeep (func : FwModuleFunc) (wasm : ℕ → Bool) (call : ℕ → Meaning Status) : Prop :=
  ∀ idx called, Meets (FrameIs func called) (call idx)
    (fun _ => FrameIs func (called || wasm idx)) Stop.Proper

theorem leaf_returnsFirst {fn : RunFn} (hleaf : fn.isLeaf = true) (imm : List UInt8)
    (called : Bool) : Meets (FrameIs func called) (fn.denote call func imm)
      (fun returned s => returned = false → FrameIs func called s) Stop.Proper := by
  rw [denote_leaf hleaf]
  have hstable := frame_stable_proper fun frame => called = false → frame.fin = func.body.last
  exact Triple.bind (Meets.of_keeps (hstable.leafRun fn imm)) fun _ => Triple.pure fun _ _ h _ => h

theorem return_returnsFirst (imm : List UInt8) (called : Bool) :
    Meets (FrameIs func false) (RunFn.denote call func imm .return_)
      (fun returned s => returned = false → FrameIs func called s) Stop.Proper := by
  refine Triple.get_bind fun s₀ => ?_
  by_cases hframe : s₀.ctx.frame.fin ≠ func.body.last
  · exact fun g s hs => absurd (hs.2 ▸ hs.1 rfl) hframe
  · rw [if_neg hframe]
    have hreturn : Meets (fun _ => True) (Run.meaning (fwInstrRunReturn func func.body))
        (fun _ _ => True) Stop.Proper :=
      Meets.of_noFuel NoFuel.return_
    exact (Triple.bind hreturn fun _ => Triple.pure fun _ _ _ h =>
      (Bool.true_eq_false.mp h).elim).pre fun _ _ _ => trivial

theorem call_returnsFirst (hcall : CallsKeep func wasm call) (imm : List UInt8) (called : Bool) :
    Meets (FrameIs func called) (RunFn.denote call func imm .call)
      (fun returned s => returned = false → FrameIs func (called || wasm (immIdx imm)) s)
      Stop.Proper := by
  refine Triple.bind (hcall (immIdx imm) called) fun status => ?_
  cases status with
  | err => exact Triple.emit_bind (fun _ _ h => ⟨trivial, h⟩) (Triple.pure fun _ _ h _ => h)
  | ok => exact Triple.pure fun _ _ h _ => h

/-- The opcodes that a tree may hold outside of its constructs. -/
theorem leaf_of_straight {op : UInt8} {imm : List UInt8} (h : StraightAsRead op imm) {fn : RunFn}
    (hrun : (commonInstrHandler op).run = some fn) (hreturn : fn ≠ .return_) (hcall : fn ≠ .call) :
    fn.isLeaf = true := by
  obtain ⟨instr, fn', hi, hc, htakes⟩ := h
  rw [fwGetInstr] at hi
  split at hi
  · cases hi
  obtain rfl := Option.some.inj hi
  obtain rfl : fn' = fn.decoder := Option.some.inj (hc.symm.trans (row_decoder hrun))
  cases fn with
  | block | loop | if_ | else_ | end_ => exact htakes.elim
  | return_ => exact absurd rfl hreturn
  | call => exact absurd rfl hcall
  | drop | select | localGet | localSet | localTee | i32Const | i64Const | f32Const | f64Const
  | i32Eqz | i32Eq | i32Ne | gtS => rfl

/-- An instruction that is not a construct. If it is a `return`, no wasm function was called before
(`hreturn`). -/
theorem instr_returnsFirst (hcall : CallsKeep func wasm call) {op : UInt8} {imm : List UInt8}
    (hstraight : StraightAsRead op imm) {called : Bool}
    (hreturn : (commonInstrHandler op).run = some .return_ → called = false) :
    Meets (FrameIs func called)
      ((commonInstrHandler op).run.elim (halt (.halt (.fault .nullHandler)))
        (RunFn.denote call func imm))
      (fun returned s => returned = false → FrameIs func
        (if (commonInstrHandler op).run = some .call then called || wasm (immIdx imm) else called)
        s)
      Stop.Proper := by
  cases hrun : (commonInstrHandler op).run with
  | none => exact Triple.halt fun _ _ _ => ⟨by rintro ⟨⟩, by rintro ⟨⟩⟩
  | some fn =>
    rw [Option.elim_some]
    by_cases hret : fn = .return_
    · subst hret
      obtain rfl := hreturn hrun
      exact return_returnsFirst imm _
    by_cases hc : fn = .call
    · subst hc
      rw [if_pos rfl]
      exact call_returnsFirst hcall imm called
    · rw [if_neg fun h => hc (Option.some.inj h)]
      exact leaf_returnsFirst (leaf_of_straight hstraight hrun hret hc) imm called

/-- Code that passes the check leaves for the end of its own function only, by induction on the
tree. As long as nothing is called, the frame is the function's own; behind a call the check lets no
`return` through. -/
theorem code_returnsFirst (hcall : CallsKeep func wasm call) (code : Code) :
    ∀ {called called' : Bool} (p : ℕ), code.AsRead →
      code.returnsFirst wasm called = some called' →
      Meets (FrameIs func called) (code.denote call func p)
        (fun returned s => returned = false → FrameIs func called' s) Stop.Proper := by
  have hpop : ∀ called, Meets (FrameIs func called) (Run.meaning (fwPop false))
      (fun _ => FrameIs func called) Stop.Proper := fun called =>
    Meets.of_keeps ((frame_stable_proper fun frame =>
      called = false → frame.fin = func.body.last).pop false)
  have hemit : ∀ {called : Bool} {m : Meaning Bool} {Q : Bool → Machine → Prop},
      Meets (FrameIs func called) m Q Stop.Proper →
      Meets (FrameIs func called) (do emit .err; m) Q Stop.Proper := fun h =>
    Triple.emit_bind (fun _ _ hs => ⟨trivial, hs⟩) h
  -- what may be skipped may also have called something
  have hskip : ∀ {called called' : Bool}, (called = true → called' = true) →
      ∀ s, FrameIs func called s → FrameIs func called' s := fun hle s hs h =>
    hs (Bool.eq_false_iff.mpr fun hc => by rw [hle hc] at h; cases h)
  induction code with
  | nil =>
    rintro called called' p - h
    obtain rfl := Option.some.inj h
    exact Triple.pure fun _ _ hs _ => hs
  | instr op imm rest ihr =>
    rintro called called' p ⟨hstraight, hwf⟩ h
    rw [Code.returnsFirst] at h
    by_cases hreturn : (commonInstrHandler op).run = some .return_
    · rw [if_pos hreturn] at h
      cases called with
      | true => cases h
      | false =>
        have hinstr := instr_returnsFirst hcall hstraight fun _ => (rfl : false = false)
        rw [if_neg (by rw [hreturn]; decide)] at hinstr
        exact hinstr.andThen (ihr _ hwf h)
    · rw [if_neg hreturn, ← apply_ite (rest.returnsFirst wasm)] at h
      exact (instr_returnsFirst hcall hstraight fun h' => absurd h' hreturn).andThen (ihr _ hwf h)
  | block loop bt inner rest ihi ihr =>
    rintro called called' p ⟨-, hwfi, hwfr⟩ h
    obtain ⟨called₁, hi, hr⟩ := Option.bind_eq_some_iff.mp h
    have hpush := Meets.of_keeps ((frame_stable_proper fun frame =>
      called = false → frame.fin = func.body.last).push (labelSlot loop bt p ⟨p + 1 + bt.length,
        p + 1 + bt.length + inner.encode.length + 1, p + 1 + bt.length + inner.encode.length + 1,
        blockCode loop⟩))
    exact Meets.andThen (Triple.bind hpush fun _ => ihi _ hwfi hi) (ihr _ hwfr hr)
  | ifThen bt thn rest iht ihr =>
    rintro called called' p ⟨-, hwft, hwfr⟩ h
    obtain ⟨called₁, ht, hr⟩ := Option.bind_eq_some_iff.mp h
    refine Meets.andThen (Triple.bind (hpop called) fun cond => ?_) (ihr _ hwfr hr)
    have hthn := iht (p + 1 + bt.length) hwft ht
    split
    · exact hemit hthn
    · split
      · exact hthn
      · exact Triple.pure fun _ s hs _ => hskip (thn.called_of_returnsFirst ht) s hs
  | ifElse bt thn els rest iht ihe ihr =>
    rintro called called' p ⟨-, hwft, hwfe, hwfr⟩ h
    obtain ⟨called₂, h, hr⟩ := Option.bind_eq_some_iff.mp h
    obtain ⟨called₁, ht, he⟩ := Option.bind_eq_some_iff.mp h
    refine Meets.andThen (Triple.bind (hpop called) fun cond => ?_) (ihr _ hwfr hr)
    have hthn := iht (p + 1 + bt.length) hwft ht
    have hels := ihe (p + 1 + bt.length + thn.encode.length + 1) hwfe he
    split
    · have helse := Meets.of_keeps ((frame_stable_proper fun frame =>
        called₁ = false → frame.fin = func.body.last).elseRun)
      exact hemit (hthn.andThen (Triple.bind helse fun _ => hels))
    · split
      · exact hthn.post fun _ _ s hs hf => hskip (els.called_of_returnsFirst he) s (hs hf)
      · exact hels.pre fun _ s hs => hskip (thn.called_of_returnsFirst ht) s hs

end

section

variable {env : Env} {prog : List (Coded env.mem)} {wasm : ℕ → Bool} {call : ℕ → Meaning Status}

/-- The functions of a program pass the check, in which all wasm functions count as such. A call of
an index that `wasm` leaves out is one of a host function, or out of range. -/
structure ReturnsFirst (prog : List (Coded env.mem)) (wasm : ℕ → Bool) : Prop where
  /-- the wasm functions -/
  marks : ∀ idx f, prog[idx]? = some f → f.func.hostAddr = none → wasm idx = true
  /-- the check -/
  checks : ∀ f ∈ prog, f.func.hostAddr = none → (f.code.returnsFirst wasm false).isSome

/-- A host function leaves the frame alone, so it may be called in front of a `return`. -/
theorem host_returnsFirst (func f : FwModuleFunc) (addr : ℕ) (called : Bool) :
    Meets (FrameIs func called) (Run.meaning (fwModuleRunHostFunc env f addr))
      (fun _ => FrameIs func called) Stop.Proper :=
  Meets.of_keeps ((frame_stable_proper fun frame =>
    called = false → frame.fin = func.body.last).hostFunc addr)

/-- A function whose code passes the check never halts but as the executor does. -/
theorem func_returnsFirst {f : Coded env.mem} (hcall : ∀ func, CallsKeep func wasm call)
    (hcheck : f.func.hostAddr = none → (f.code.returnsFirst wasm false).isSome) :
    Meets (fun _ => True) (f.denote env call) (fun _ _ => True) Stop.Proper := by
  rw [Coded.denote]
  cases hhost : f.func.hostAddr with
  | some addr =>
    exact ((host_returnsFirst f.func f.func addr true).pre fun _ _ _ h =>
      (Bool.true_eq_false.mp h).elim).post fun _ _ _ _ => trivial
  | none =>
    obtain ⟨called', hcode⟩ := Option.isSome_iff_exists.mp (hcheck hhost)
    have henter : Meets (fun _ => True) (Run.meaning (fwEnterFunc env f.func))
        (fun _ => FrameIs f.func false) Stop.Proper :=
      Triple.lift (NoFuel.enterFunc.triple (fun e _ (h : e ≠ .fuel) => h)
        (enterFunc_frame (J := fun _ _ => True) (K := fun _ frame => frame.fin = f.func.body.last)
          trivialMonitor_quiet fun _ _ _ _ => ⟨trivial, rfl⟩) |>.post fun _ _ _ h _ => h)
        fun _ _ _ _ he => ⟨by rintro ⟨⟩, fun h => he (Stop.halt.inj h)⟩
    exact Triple.bind henter fun save => Triple.bind
      (code_returnsFirst (hcall f.func) f.code _ (f.encodes hhost).asRead hcode) fun _ =>
      (Meets.of_noFuel (NoFuel.leaveFunc _ _)).pre fun _ _ _ => trivial

/-- So do all calls of functions that are not wasm functions, by induction on the depth; and no call
stops in a function that is not its own. -/
theorem calls_returnsFirst (h : ReturnsFirst prog wasm) (depth : ℕ) :
    ∀ func, CallsKeep func wasm (callDenote env prog depth) := by
  have hnone : ∀ {α : Type} {P : Machine → Prop} {Q : α → Machine → Prop},
      Meets P (halt (.halt (.fault .funcIdx))) Q Stop.Proper :=
    Triple.halt fun _ _ _ => ⟨by rintro ⟨⟩, by rintro ⟨⟩⟩
  induction depth with
  | zero =>
    intro func idx called
    simp only [callDenote]
    cases prog[idx]? with
    | none => exact hnone
    | some f => exact Triple.halt fun _ _ _ => ⟨by rintro ⟨⟩, by rintro ⟨⟩⟩
  | succ depth ih =>
    intro func idx called
    simp only [callDenote]
    cases hf : prog[idx]? with
    | none => exact hnone
    | some f =>
      rw [Option.elim_some]
      cases hhost : f.func.hostAddr with
      | some addr =>
        rw [Coded.denote, hhost]
        exact (host_returnsFirst func f.func addr called).post fun _ _ _ hs hcalled =>
          hs (Bool.or_eq_false_iff.mp hcalled).1
      | none =>
        rw [h.marks idx f hf hhost, Bool.or_true]
        exact (func_returnsFirst ih (h.checks f (List.mem_of_getElem? hf))).conseq
          (fun _ _ _ => trivial) fun _ _ _ _ hcalled => (Bool.true_eq_false.mp hcalled).elim

/-- A run from outside never halts but as the executor does, or for want of depth. -/
theorem run_returnsFirst (h : ReturnsFirst prog wasm) {f : Coded env.mem} (hf : f ∈ prog)
    (depth : ℕ) (args : List (List UInt8)) (rets : Bool) :
    Meets (fun _ => True) (f.runDenote env prog depth args rets) (fun _ _ => True) Stop.Proper := by
  have hstable := frame_stable_proper fun _ => True
  rw [Coded.runDenote]
  split
  · exact Triple.pure fun _ _ _ => trivial
  · refine Triple.bind (Meets.of_keeps (hstable.pushArgs _)) fun _ =>
      Triple.bind (func_returnsFirst (calls_returnsFirst h depth) (h.checks f hf)) fun status => ?_
    cases status with
    | err => exact Triple.pure fun _ _ _ => trivial
    | ok =>
      simp only
      split
      · exact Triple.bind (Meets.of_keeps (hstable.pop false)) fun _ =>
          Triple.pure fun _ _ _ => trivial
      · exact Triple.pure fun _ _ _ => trivial

/-- An outcome that the executor can have is the outcome of a computation of the executor's. -/
theorem exists_lift {α : Type} {o' : Outcome Event Stop Machine α}
    (hproper : ∀ e, o'.res = .error e → e.Proper) (hdepth : o'.res ≠ .error .depth) :
    ∃ o : Outcome Event Halt Machine α, o.lift Stop.halt = o' ∧ o.res ≠ .error .fuel := by
  rcases o' with ⟨l, e | x⟩
  · cases e with
    | halt h =>
      exact ⟨⟨l, .error h⟩, rfl, fun he =>
        (hproper _ rfl).2 (congrArg Stop.halt (Except.error.inj he))⟩
    | stray => exact absurd rfl (hproper _ rfl).1
    | depth => exact absurd rfl hdepth
  · exact ⟨⟨l, .ok x⟩, rfl, by rintro ⟨⟩⟩

/-- A run of a program without a `return` behind a call ends if and only if the calls nest to some
depth only. It ends in some way, with a status or at a fault; that it does is to have enough steps
for it. The environment runs the functions of the program (`hprog`), `h` is the check, and the
function is any of them, with any arguments and on any machine. -/
theorem run_ends_iff (hprog : env.funcs = prog.map Coded.func) (h : ReturnsFirst prog wasm)
    {f : Coded env.mem} (hf : f ∈ prog) (args : List (List UInt8)) (rets : Bool) (s : Machine) :
    (∃ n, (fwModuleRunFunc env n f.func args rets s).res ≠ .error .fuel) ↔
      ∃ depth, (f.runDenote env prog depth args rets s).res ≠ .error .depth := by
  refine ⟨?_, ?_⟩
  · rintro ⟨n, hn⟩
    have hreaches := (run_adequate hprog n f args rets s).reaches
    exact ⟨n, hreaches.ends (Nat.le_succ n) hn (by rintro ⟨⟩) fun e => by rintro ⟨⟩⟩
  · rintro ⟨depth, hdepth⟩
    have hproper : ∀ e, (f.runDenote env prog depth args rets s).res = .error e → e.Proper := by
      intro e he
      have hends := (run_returnsFirst h hf depth args rets () s trivial).2
      rwa [he] at hends
    obtain ⟨o, ho, hfuel⟩ := exists_lift hproper hdepth
    obtain ⟨N, hN⟩ := (run_adequate hprog depth f args rets s).agrees o ho
    refine ⟨N, fun he => hfuel ?_⟩
    have hres := congrArg Outcome.res (hN N (Nat.le_refl N))
    exact hres.symm.trans he

end

/-! ## Calls that go down

A function of rank `r` needs a depth of `r`, since what it calls has a lower rank. So a run that
would stop for want of depth at its own rank calls something that it does not call. -/

/-- Does not halt for want of depth, on any machine. -/
abbrev Deep {α : Type} (m : Meaning α) : Prop :=
  Meets (fun _ => True) m (fun _ _ => True) fun e => e ≠ .depth

namespace Deep

variable {α β : Type}

theorem pure (a : α) : Deep (pure a : Meaning α) := Triple.pure fun _ _ _ => trivial

theorem halt {e : Stop} (he : e ≠ .depth) : Deep (halt e : Meaning α) := Triple.halt fun _ _ _ => he

theorem bind {m : Meaning α} {f : α → Meaning β} (hm : Deep m) (hf : ∀ a, Deep (f a)) :
    Deep (m >>= f) :=
  Triple.bind hm hf

theorem emit (e : Event) : Deep (emit e : Meaning PUnit) :=
  Triple.emit fun _ _ _ => ⟨trivial, trivial⟩

/-- What the executor does. -/
theorem run (m : Run α) : Deep m.meaning :=
  Triple.lift (H := fun _ _ => True) (Triple.of_closed (S := fun _ => True)
    (fun _ _ _ => trivial) (fun _ _ _ => trivial) (fun _ _ _ => trivial) (fun _ _ _ _ => trivial)
    fun _ _ _ => trivial) fun _ _ _ _ _ => by rintro ⟨⟩

theorem ite {c : Prop} [Decidable c] {m m' : Meaning α} (h : Deep m) (h' : Deep m') :
    Deep (if c then m else m') := by
  split
  · exact h
  · exact h'

theorem andThen {m rest : Meaning Bool} (hm : Deep m) (hrest : Deep rest) :
    Deep (andThen m rest) :=
  hm.bind fun _ => .ite (.pure _) hrest

end Deep

section

variable {func : FwModuleFunc} {call : ℕ → Meaning Status}

theorem run_deep {fn : RunFn} {imm : List UInt8} (hcall : fn = .call → Deep (call (immIdx imm))) :
    Deep (fn.denote call func imm) := by
  cases fn with
  | return_ =>
    refine Triple.get_bind fun s₀ => Triple.pre ?_ fun _ _ _ => trivial
    exact Deep.ite (.halt (by rintro ⟨⟩)) ((Deep.run _).bind fun _ => .pure _)
  | call =>
    refine (hcall rfl).bind fun status => ?_
    cases status with
    | err => exact (Deep.emit _).bind fun _ => .pure _
    | ok => exact .pure _
  | block | loop | if_ | else_ | end_ | drop | select | localGet | localSet | localTee | i32Const
  | i64Const | f32Const | f64Const | i32Eqz | i32Eq | i32Ne | gtS =>
    exact (Deep.run _).bind fun _ => .pure _

/-- Code is deep enough when what it calls is, by induction on the tree. Only the calls that stand
in it matter. -/
theorem code_deep (code : Code) : ∀ p, (∀ idx ∈ code.callees, Deep (call idx)) →
    Deep (code.denote call func p) := by
  induction code with
  | nil => exact fun _ _ => .pure _
  | instr op imm rest ihr =>
    intro p h
    have hrest : ∀ idx ∈ rest.callees, Deep (call idx) := fun idx hidx => h idx (by
      rw [Code.callees]
      split
      · exact List.mem_cons_of_mem _ hidx
      · exact hidx)
    refine Deep.andThen ?_ (ihr _ hrest)
    cases hrun : (commonInstrHandler op).run with
    | none => exact .halt (by rintro ⟨⟩)
    | some fn =>
      refine run_deep fun hfn => h _ ?_
      rw [Code.callees, if_pos (by rw [hrun, hfn])]
      exact List.mem_cons_self
  | block loop bt inner rest ihi ihr =>
    intro p h
    obtain ⟨hi, hr⟩ := List.forall_mem_append.mp h
    exact .andThen ((Deep.run _).bind fun _ => ihi _ hi) (ihr _ hr)
  | ifThen bt thn rest iht ihr =>
    intro p h
    obtain ⟨ht, hr⟩ := List.forall_mem_append.mp h
    exact .andThen ((Deep.run _).bind fun cond => .ite ((Deep.emit _).bind fun _ => iht _ ht)
      (.ite (iht _ ht) (.pure _))) (ihr _ hr)
  | ifElse bt thn els rest iht ihe ihr =>
    intro p h
    obtain ⟨h, hr⟩ := List.forall_mem_append.mp h
    obtain ⟨ht, he⟩ := List.forall_mem_append.mp h
    exact .andThen ((Deep.run _).bind fun cond => .ite ((Deep.emit _).bind fun _ =>
      (iht _ ht).andThen ((Deep.run _).bind fun _ => ihe _ he)) (.ite (iht _ ht) (ihe _ he)))
      (ihr _ hr)

end

section

variable {env : Env} {prog : List (Coded env.mem)} {wasm : ℕ → Bool}

/-- Every function calls functions of a lower rank only. A call of an index out of range has no
rank, and is a fault. -/
def Ranked (prog : List (Coded env.mem)) (rank : ℕ → ℕ) : Prop :=
  ∀ idx f, prog[idx]? = some f → ∀ idx' ∈ f.code.callees, idx' < prog.length → rank idx' < rank idx

theorem func_deep {f : Coded env.mem} {call : ℕ → Meaning Status}
    (h : ∀ idx ∈ f.code.callees, Deep (call idx)) : Deep (f.denote env call) := by
  rw [Coded.denote]
  cases f.func.hostAddr with
  | some addr => exact .run _
  | none => exact (Deep.run _).bind fun _ => (code_deep _ _ h).bind fun _ => .run _

/-- A call of a function with a lower rank than the depth, by induction on the depth. -/
theorem call_deep {rank : ℕ → ℕ} (hrank : Ranked prog rank) (depth : ℕ) :
    ∀ idx, (idx < prog.length → rank idx < depth) → Deep (callDenote env prog depth idx) := by
  induction depth with
  | zero =>
    intro idx hidx
    simp only [callDenote]
    cases hf : prog[idx]? with
    | none => exact .halt (by rintro ⟨⟩)
    | some f => exact absurd (hidx (List.getElem?_eq_some_iff.mp hf).1) (Nat.not_lt_zero _)
  | succ depth ih =>
    intro idx hidx
    simp only [callDenote]
    cases hf : prog[idx]? with
    | none => exact .halt (by rintro ⟨⟩)
    | some f =>
      have hlt := hidx (List.getElem?_eq_some_iff.mp hf).1
      refine func_deep fun idx' hidx' => ih idx' fun hlen => ?_
      have := hrank idx f hf idx' hidx' hlen
      omega

/-- A run of a program in which calls go down in some order does not nest deeper than that. -/
theorem runDenote_ne_depth {rank : ℕ → ℕ} (hrank : Ranked prog rank) {idx : ℕ} {f : Coded env.mem}
    (hf : prog[idx]? = some f) (args : List (List UInt8)) (rets : Bool) (s : Machine) :
    (f.runDenote env prog (rank idx) args rets s).res ≠ .error .depth := by
  have hdeep : Deep (f.runDenote env prog (rank idx) args rets) := by
    rw [Coded.runDenote]
    refine .ite (.pure _) ((Deep.run _).bind fun _ => (func_deep fun idx' hidx' =>
      call_deep hrank _ idx' fun hlen => hrank idx f hf idx' hidx' hlen).bind fun status => ?_)
    cases status with
    | err => exact .pure _
    | ok => exact .ite ((Deep.run _).bind fun _ => .pure _) (.pure _)
  intro he
  have hends := (hdeep () s trivial).2
  rw [he] at hends
  exact hends rfl

/-- A run of a program without a `return` behind a call, in which calls go down in some order
(`hrank`), ends on every machine, as it means. The depth that is needed is the rank of the function.
So with enough steps the outcome is that of the meaning, with all its events but the fetches of
opcodes. -/
theorem ranked_ends {rank : ℕ → ℕ} (hprog : env.funcs = prog.map Coded.func)
    (h : ReturnsFirst prog wasm) (hrank : Ranked prog rank) {idx : ℕ} {f : Coded env.mem}
    (hf : prog[idx]? = some f) (args : List (List UInt8)) (rets : Bool) (s : Machine) :
    ∃ o : Outcome Event Halt Machine (Status × Option UInt32), o.res ≠ .error .fuel ∧
      o.lift Stop.halt = f.runDenote env prog (rank idx) args rets s ∧
      ∃ N, ∀ n ≥ N, (fwModuleRunFunc env n f.func args rets s).seen Event.shown =
        o.seen Event.shown := by
  have hmem := List.mem_of_getElem? hf
  have hproper : ∀ e, (f.runDenote env prog (rank idx) args rets s).res = .error e → e.Proper := by
    intro e he
    have hends := (run_returnsFirst h hmem (rank idx) args rets () s trivial).2
    rwa [he] at hends
  obtain ⟨o, ho, hfuel⟩ := exists_lift hproper (runDenote_ne_depth hrank hf args rets s)
  exact ⟨o, hfuel, ho, (run_adequate hprog (rank idx) f args rets s).agrees o ho⟩

end

/-! ### A program with a call

The two functions of the module that is compiled and run in the end. The second one has no calls, so
the ranks are 1 and 0. -/

/-- The module with a call, as a program: its functions encode their trees, it passes the check, and
its calls go down. -/
theorem exists_callsBlock : ∃ (env : Env) (prog : List (Coded env.mem)),
    env.funcs = prog.map Coded.func ∧ prog.map Coded.code = callsBlockCodes ∧
      ReturnsFirst prog (fun _ => true) ∧ Ranked prog fun idx => 1 - idx := by
  obtain ⟨module', hcompile⟩ : ∃ module', fwModuleCompile callsBlockEnv.mem callsBlock
    (fwImportFuncs []) = .ok (.ok, module') := ⟨_, rfl⟩
  obtain ⟨prog, hfuncs, hcodes⟩ :=
    exists_program (List.forall_mem_nil _) hcompile callsBlock_source
  have hcode : ∀ (idx : ℕ) (f : Coded callsBlockEnv.mem), prog[idx]? = some f →
      callsBlockCodes[idx]? = some f.code := by
    intro idx f hf
    rw [show callsBlockCodes = prog.map Coded.code from hcodes.symm, List.getElem?_map, hf]
    rfl
  refine ⟨{ callsBlockEnv with funcs := module'.inst.getD [] }, prog, hfuncs.symm, hcodes,
    ⟨fun _ _ _ _ => rfl, fun f hf _ => ?_⟩, fun idx f hf => ?_⟩
  · obtain ⟨idx, hidx⟩ := List.mem_iff_getElem?.mp hf
    exact (by decide : ∀ code ∈ callsBlockCodes, (code.returnsFirst (fun _ => true) false).isSome)
      _ (List.mem_of_getElem? (hcode idx f hidx))
  · match idx, hcode idx f hf with
    | 0, h =>
      rw [← Option.some.inj h]
      exact fun idx' hidx' _ => by
        rw [show idx' = 1 from List.mem_singleton.mp hidx']
        decide
    | 1, h =>
      rw [← Option.some.inj h]
      exact fun idx' hidx' => by cases hidx'
    | idx + 2, h => cases h

/-- Its runs end exactly when the calls nest to some depth. -/
theorem callsBlock_ends_iff : ∃ (env : Env) (prog : List (Coded env.mem)),
    prog.map Coded.code = callsBlockCodes ∧ ∀ f ∈ prog, ∀ args rets s,
      (∃ n, (fwModuleRunFunc env n f.func args rets s).res ≠ .error .fuel) ↔
        ∃ depth, (f.runDenote env prog depth args rets s).res ≠ .error .depth := by
  obtain ⟨env, prog, hprog, hcodes, hreturns, -⟩ := exists_callsBlock
  exact ⟨env, prog, hcodes, fun f hf args rets s => run_ends_iff hprog hreturns hf args rets s⟩

/-- All of them do, with the outcome that the program means. -/
theorem callsBlock_ends : ∃ (env : Env) (prog : List (Coded env.mem)) (f : Coded env.mem),
    prog[0]? = some f ∧ f.code = .instr 0x10 [0x01] .nil ∧ ∀ args rets s,
      ∃ o : Outcome Event Halt Machine (Status × Option UInt32), o.res ≠ .error .fuel ∧
        o.lift Stop.halt = f.runDenote env prog 1 args rets s ∧
        ∃ N, ∀ n ≥ N, (fwModuleRunFunc env n f.func args rets s).seen Event.shown =
          o.seen Event.shown := by
  obtain ⟨env, prog, hprog, hcodes, hreturns, hrank⟩ := exists_callsBlock
  cases prog with
  | nil => cases hcodes
  | cons f prog =>
    have hf : (f :: prog)[0]? = some f := rfl
    exact ⟨env, f :: prog, f, hf, (List.cons.inj hcodes).1, fun args rets s =>
      ranked_ends hprog hreturns hrank hf args rets s⟩

end FastWasm
