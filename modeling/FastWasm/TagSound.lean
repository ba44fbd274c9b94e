import FastWasm.TagSteps

/-!
# Checked programs take no error path

A program that passes the check never takes an error path, has no undefined behaviour and never pops
from an empty stack, whatever it is called with and however long it runs (`checked_sound`). With a
strict check and calls that go down in some order, every run ends and returns `FW_OK`
(`ranked_checked_returns`). The check is sound for trees by induction on the tree (`code_sound`) and
for calls by induction on their depth (`calls_sound`).

All of it is proved of the meaning of a program, where there are no cursors, and carried over to the
executor in the end: a run is on the way of the meaning, so it takes no error path that the meaning
does not take. What the check promises of a function is assumed of the functions it calls, at a
smaller depth, and the two halts that remain are that the calls nest too deep and that the stack is
full.

One thing is no matter of the check. A function without parameters and locals never assigns
the variable `locals`, and goes on with what happens to be there. That it is `NULL` is assumed
throughout (`NullLocals`).
-/

namespace FastWasm

open Logged

/-! ## Meanings

Triples about meanings under the monitor of the tags. That a meaning may stop for want of depth, or
in another function, is among what is allowed. -/

/-- A meaning halts for want of depth, or at the limit. -/
def Capped (strict : Bool) (e : Stop) (_ : ℕ) : Prop :=
  e = .depth ∨ strict = false ∧ e = .halt .exit

section

variable {strict : Bool} {funcs : List FwModuleFunc} {sigs : ℕ → Sig} {func : FwModuleFunc}
  {sig : Sig} {frame : Frame → Prop} {blocks : ℕ → Option ℕ} {locals : Option ℕ}
  {ts tail : List UInt8} {called : Bool} {call : ℕ → Meaning Status} {x y z : Flow}

/-- What the executor does, as a meaning, keeps to the tags as well. -/
theorem Stands.meaning {α : Type} {P : ℕ → Machine → Prop} {m : Run α}
    {Q : α → ℕ → Machine → Prop} (h : Triple (tagMonitor strict) P m Q (AtLimit strict)) :
    Triple (tagMonitor strict) P m.meaning Q (Capped strict) :=
  Triple.lift h fun _ _ _ _ he => .inr ⟨he.1, congrArg Stop.halt he.2⟩

/-- Until a wasm function is called, the frame is that of the function, which was entered at that
depth. -/
def OwnFrame (func : FwModuleFunc) (depth : ℕ) (called : Bool) (f : Frame) : Prop :=
  called = false → f = ⟨func.body.last, UInt8.ofNat depth⟩

theorem OwnFrame.mono {depth : ℕ} {called' : Bool} {f : Frame} (h : OwnFrame func depth called f)
    (hle : called = true → called' = true) : OwnFrame func depth called' f := by
  intro hcalled'
  cases called with
  | false => exact h rfl
  | true =>
    rw [hle rfl] at hcalled'
    cases hcalled'

/-- The machine that code leaves, when it ends as the check says. The operands that the function was
entered on are below. -/
def Flow.Leaves (func : FwModuleFunc) (sig : Sig) (blocks : ℕ → Option ℕ) (locals : Option ℕ)
    (tail : List UInt8) : Flow → Bool → ℕ → Machine → Prop
  | .gone, false => fun _ _ => False
  | .on ts called, false => Stands (OwnFrame func tail.length called) blocks locals (ts ++ tail)
  | _, true => Stands (fun _ => True) blocks locals (sig.leaves ++ tail)

theorem Flow.leaves_true (x : Flow) : x.Leaves func sig blocks locals tail true =
    Stands (fun _ => True) blocks locals (sig.leaves ++ tail) := by
  cases x with
  | gone | on => rfl

/-- What holds after one of two branches holds after both. Where both fall through they have to
leave the same types, and a call in one of them counts as a call behind both. -/
theorem Flow.leaves_join (h : x.join y = some z) {returned : Bool} {depth : ℕ} {s : Machine}
    (hs : x.Leaves func sig blocks locals tail returned depth s ∨
      y.Leaves func sig blocks locals tail returned depth s) :
    z.Leaves func sig blocks locals tail returned depth s := by
  cases returned with
  | true => simpa only [leaves_true, or_self] using hs
  | false =>
    cases x with
    | gone =>
      obtain rfl := Option.some.inj h
      exact hs.resolve_left id
    | on ts called =>
      cases y with
      | gone =>
        obtain rfl := Option.some.inj h
        exact hs.resolve_right id
      | on ts' called' =>
        obtain ⟨rfl, hz⟩ := Option.ite_none_right_eq_some.mp h
        obtain rfl := Option.some.inj hz
        rcases hs with hs | hs
        · exact Stands.weaken hs (fun _ hf => hf.mono fun hc => by rw [hc]; rfl) fun _ _ h => h
        · exact Stands.weaken hs (fun _ hf => hf.mono fun hc => by rw [hc, Bool.or_true])
            fun _ _ h => h

/-- From these tags code ends as the check says: it leaves these tags on the stack, or it returns
with the results on top of it. -/
abbrev EndsAs (strict : Bool) (func : FwModuleFunc) (sig : Sig) (blocks : ℕ → Option ℕ)
    (locals : Option ℕ) (tail ts : List UInt8) (called : Bool) (m : Meaning Bool) (x : Flow) :
    Prop :=
  Triple (tagMonitor strict) (Stands (OwnFrame func tail.length called) blocks locals (ts ++ tail))
    m (x.Leaves func sig blocks locals tail) (Capped strict)

/-- Code after code: the second part starts from the tags that the first one leaves, unless that has
returned. -/
theorem EndsAs.andThen {m rest : Meaning Bool} {k : List UInt8 → Bool → Option Flow}
    (hm : EndsAs strict func sig blocks locals tail ts called m x)
    (hnext : x.next k = some y)
    (hrest : ∀ {ts called}, k ts called = some y →
      EndsAs strict func sig blocks locals tail ts called rest y) :
    EndsAs strict func sig blocks locals tail ts called (andThen m rest) y := by
  refine Triple.bind hm fun returned => ?_
  cases returned with
  | true =>
    refine Triple.pure fun _ _ h => ?_
    rw [Flow.leaves_true] at h ⊢
    exact h
  | false =>
    cases x with
    | gone => exact fun _ _ h => h.elim
    | on ts' called' => exact hrest hnext

/-- What the check says about calls: a call of a function that fits leaves the tags that are
promised, and takes no error path. -/
def CallsKept (strict : Bool) (funcs : List FwModuleFunc) (sigs : ℕ → Sig)
    (call : ℕ → Meaning Status) : Prop :=
  ∀ {frame : Frame → Prop} {blocks : ℕ → Option ℕ} {locals : Option ℕ} {ts ts' tail : List UInt8}
    {idx : ℕ} {f : FwModuleFunc}, funcs[idx]? = some f → f.effect (sigs idx) ts = some ts' →
    (f.hostAddr = none → (ts ++ tail).length ≤ (sigs idx).depth) →
    (f.hostAddr ≠ none → strict = true → (ts' ++ tail).length ≤ fwMaxStackSize) →
    Triple (tagMonitor strict) (Stands frame blocks locals (ts ++ tail)) (call idx)
      (fun status depth s => status = .ok ∧
        Stands (fun fr => f.hostAddr.isNone = false → frame fr) blocks locals (ts' ++ tail) depth s)
      (Capped strict)

/-! ## Instructions

One lemma for each case of the check. -/

/-- A tail that the function can be entered on leaves room for what fits. -/
theorem Sig.Fits.room (h : sig.Fits strict ts) (htail : tail.length ≤ sig.depth) :
    strict = true → (ts ++ tail).length ≤ fwMaxStackSize := by
  intro hstrict
  have hfits := h hstrict
  rw [List.length_append]
  omega

theorem check_leaf {fn : RunFn} (hleaf : fn.isLeaf = true) (imm : List UInt8) :
    fn.check strict funcs sigs func sig imm ts called =
      (fn.effect func.localsCnt imm ts).bind fun ts' =>
        if sig.Fits strict ts' then some (.on ts' called) else none := by
  cases fn with
  | block | loop | if_ | else_ | end_ | return_ | call => exact absurd hleaf (by decide)
  | drop | select | localGet | localSet | localTee | i32Const | i64Const | f32Const | f64Const
  | i32Eqz | i32Eq | i32Ne | gtS => rfl

section

variable {imm : List UInt8}

theorem leaf_sound {fn : RunFn} (hlocals : HasLocals blocks locals func.localsCnt)
    (htail : tail.length ≤ sig.depth) (hleaf : fn.isLeaf = true)
    (hcheck : fn.check strict funcs sigs func sig imm ts called = some x) :
    EndsAs strict func sig blocks locals tail ts called (fn.denote call func imm) x := by
  rw [check_leaf hleaf] at hcheck
  obtain ⟨ts', heffect, hx⟩ := Option.bind_eq_some_iff.mp hcheck
  obtain ⟨hfits, hx⟩ := Option.ite_none_right_eq_some.mp hx
  obtain rfl := Option.some.inj hx
  rw [denote_leaf hleaf]
  exact Triple.bind (Stands.meaning (leaf_tags hlocals heffect (hfits.room htail))) fun _ =>
    Triple.pure fun _ _ h => h

theorem return_sound (htail : tail.length ≤ sig.depth)
    (hcheck : RunFn.check strict funcs sigs func sig imm .return_ ts called = some x) :
    EndsAs strict func sig blocks locals tail ts called
      (RunFn.denote call func imm .return_) x := by
  obtain ⟨⟨rfl, hdepth, hres, hleaves⟩, hx⟩ := Option.ite_none_right_eq_some.mp hcheck
  obtain rfl := Option.some.inj hx
  refine Triple.get_bind fun s₀ => Triple.of_points fun depth s ⟨hs, heq⟩ => ?_
  subst heq
  rw [if_neg (not_not.mpr (by rw [hs.frame rfl]))]
  have hreturn : Retags strict (OwnFrame func tail.length false) blocks locals (ts ++ tail)
      (fwInstrRunReturn func func.body) (ts.take func.functype.resCnt.toNat ++ tail) :=
    return_tags func.body (fun _ hf => hf rfl) (Nat.lt_of_le_of_lt htail hdepth) hres
  refine Triple.bind ((Stands.meaning hreturn).pre ?_) fun _ => Triple.pure fun _ _ h => ?_
  · rintro _ _ ⟨rfl, rfl⟩
    exact hs
  · rw [hleaves] at h
    exact h.weaken (fun _ _ => trivial) fun _ _ h => h

theorem call_sound (hcall : CallsKept strict funcs sigs call) (htail : tail.length ≤ sig.depth)
    (hcheck : RunFn.check strict funcs sigs func sig imm .call ts called = some x) :
    EndsAs strict func sig blocks locals tail ts called (RunFn.denote call func imm .call) x := by
  obtain ⟨f, hf, hcheck⟩ := Option.bind_eq_some_iff.mp hcheck
  obtain ⟨ts', heffect, hcheck⟩ := Option.bind_eq_some_iff.mp hcheck
  obtain ⟨⟨hdepth, hfits⟩, hx⟩ := Option.ite_none_right_eq_some.mp hcheck
  obtain rfl := Option.some.inj hx
  intro depth s hs
  have hlen := hs.length_le
  rw [List.length_append] at hlen
  have henter : f.hostAddr = none → (ts ++ tail).length ≤ (sigs (immIdx imm)).depth := by
    intro hwasm
    have hmin := hdepth hwasm
    rw [List.length_append]
    omega
  refine Triple.bind (hcall hf heffect henter fun _ => hfits.room htail)
    (fun status => ?_) depth s hs
  refine Triple.of_and ?_
  rintro rfl
  refine Triple.pure fun _ _ h => h.weaken (fun fr hfr => ?_) fun _ _ h => h
  intro hcalled
  obtain ⟨hcalled, hhost⟩ := Bool.or_eq_false_iff.mp hcalled
  exact hfr hhost hcalled

theorem instr_sound (hcall : CallsKept strict funcs sigs call)
    (hlocals : HasLocals blocks locals func.localsCnt) (htail : tail.length ≤ sig.depth)
    {fn : RunFn} (hcheck : fn.check strict funcs sigs func sig imm ts called = some x) :
    EndsAs strict func sig blocks locals tail ts called (fn.denote call func imm) x := by
  cases fn with
  | block | loop | if_ | else_ | end_ => cases hcheck
  | return_ => exact return_sound htail hcheck
  | call => exact call_sound hcall htail hcheck
  | drop | select | localGet | localSet | localTee | i32Const | i64Const | f32Const | f64Const
  | i32Eqz | i32Eq | i32Ne | gtS => exact leaf_sound hlocals htail rfl hcheck

end

/-! ## Trees

By induction on the tree, with the tags before it and the depth that is left. -/

/-- The condition of an `if` is there and has the right type. -/
theorem cond_sound {ts' : List UInt8} (hpop : popI32 ts = some ts') {m : Slot → Meaning Bool}
    (hm : ∀ cond : Slot, EndsAs strict func sig blocks locals tail ts' called (m cond) x)
    {bad : Meaning Bool} :
    EndsAs strict func sig blocks locals tail ts called (do
      let cond ← Run.meaning (fwPop false)
      if cond.type ≠ fwI32 then bad else m cond) x := by
  cases ts with
  | nil => cases hpop
  | cons t ts =>
    obtain ⟨rfl, hts⟩ := Option.ite_none_right_eq_some.mp hpop
    obtain rfl := Option.some.inj hts
    refine Triple.bind (Stands.meaning pop_tags) fun cond => Triple.of_and fun htype => ?_
    rw [if_neg (not_not.mpr htype)]
    exact hm cond

/-- One of two branches is taken, and both end as the check says. -/
theorem branch_sound {m m' : Meaning Bool} (hjoin : x.join y = some z)
    (hm : EndsAs strict func sig blocks locals tail ts called m x)
    (hm' : EndsAs strict func sig blocks locals tail ts called m' y) {c : Prop} [Decidable c] :
    EndsAs strict func sig blocks locals tail ts called (if c then m else m') z := by
  split
  · exact Triple.post hm fun _ _ _ h => Flow.leaves_join hjoin (.inl h)
  · exact Triple.post hm' fun _ _ _ h => Flow.leaves_join hjoin (.inr h)

theorem labelSlot_type (loop : Bool) (bt : List UInt8) (p : ℕ) (c : Construct) :
    (labelSlot loop bt p c).type = blockCode loop := by
  cases loop <;> rfl

/-- Code ends as the check says, by induction on the tree. A construct is a push of its label, the
code inside and what follows, an `if` takes one of its branches after popping the condition. -/
theorem code_sound (hcall : CallsKept strict funcs sigs call)
    (hlocals : HasLocals blocks locals func.localsCnt) (htail : tail.length ≤ sig.depth)
    (code : Code) : ∀ {ts : List UInt8} {called : Bool} {x : Flow} (p : ℕ),
      code.check strict funcs sigs func sig ts called = some x →
      EndsAs strict func sig blocks locals tail ts called (code.denote call func p) x := by
  induction code with
  | nil =>
    intro ts called x p hcheck
    obtain rfl := Option.some.inj hcheck
    exact Triple.pure fun _ _ h => h
  | instr op imm rest ihr =>
    intro ts called x p hcheck
    obtain ⟨y, hinstr, hrest⟩ := Option.bind_eq_some_iff.mp hcheck
    obtain ⟨fn, hrun, hinstr⟩ := Option.bind_eq_some_iff.mp hinstr
    rw [Code.denote, hrun]
    exact EndsAs.andThen (instr_sound hcall hlocals htail hinstr) hrest fun h => ihr _ h
  | block loop bt inner rest ihi ihr =>
    intro ts called x p hcheck
    obtain ⟨y, hinner, hrest⟩ := Option.bind_eq_some_iff.mp hcheck
    obtain ⟨hfits, hinner⟩ := Option.ite_none_right_eq_some.mp hinner
    refine EndsAs.andThen (Triple.bind (Stands.meaning (push_tags _ fun h => ?_)) fun _ => ?_) hrest
      fun h => ihr _ h
    · exact Nat.lt_of_succ_le (hfits.room htail h)
    · rw [labelSlot_type]
      exact ihi _ hinner
  | ifThen bt thn rest iht ihr =>
    intro ts called x p hcheck
    obtain ⟨y, hif, hrest⟩ := Option.bind_eq_some_iff.mp hcheck
    obtain ⟨ts', hpop, hif⟩ := Option.bind_eq_some_iff.mp hif
    obtain ⟨z, hthn, hjoin⟩ := Option.bind_eq_some_iff.mp hif
    refine EndsAs.andThen (cond_sound hpop fun cond => ?_) hrest fun h => ihr _ h
    split
    · exact Triple.post (iht _ hthn) fun _ _ _ h => Flow.leaves_join hjoin (.inr h)
    · exact Triple.pure fun _ _ h => Flow.leaves_join hjoin (.inl h)
  | ifElse bt thn els rest iht ihe ihr =>
    intro ts called x p hcheck
    obtain ⟨y, hif, hrest⟩ := Option.bind_eq_some_iff.mp hcheck
    obtain ⟨ts', hpop, hif⟩ := Option.bind_eq_some_iff.mp hif
    obtain ⟨z, hthn, hif⟩ := Option.bind_eq_some_iff.mp hif
    obtain ⟨w, hels, hjoin⟩ := Option.bind_eq_some_iff.mp hif
    exact EndsAs.andThen (cond_sound hpop fun cond =>
      branch_sound hjoin (iht _ hthn) (ihe _ hels)) hrest fun h => ihr _ h

/-! ## Functions

From the code of a function and its promise to what a call of it leaves, and from there to all calls
by induction on the depth. -/

/-- A wasm function of which the promise is kept leaves what it should on its arguments. It enters
with a block of its own, so what its body does to the locals is not seen by the caller, whose block
is still there afterwards. -/
theorem wasm_sound {env : Env} {f : Coded env.mem} (hcall : CallsKept strict funcs sigs call)
    (hwasm : f.func.hostAddr = none)
    (hnull : f.func.localsCnt = 0 → ∀ k, env.uninit k = none)
    (hkept : sig.Kept strict funcs sigs f.func f.code) (htail : tail.length ≤ sig.depth)
    (hargs : f.func.functype.paramCnt.toNat ≤ tail.length) :
    Triple (tagMonitor strict) (Stands frame blocks locals tail) (f.denote env call)
      (fun status depth s => status = .ok ∧
        Stands (fun _ => True) blocks locals (sig.leaves ++ tail) depth s) (Capped strict) := by
  obtain ⟨x, hcode, hleaves⟩ := hkept.code
  rw [Coded.denote, hwasm]
  refine Triple.bind (Stands.meaning (enterFunc_tags hnull hkept.params hargs)) fun save =>
    Triple.of_exists fun own => Triple.of_and ?_
  rintro rfl
  refine Triple.of_and fun hown => ?_
  have hbody := code_sound hcall hown.hasLocals htail f.code f.func.body.pos hcode
  refine Triple.bind (hbody.pre fun _ _ h => h.weaken (fun _ hf _ => hf) fun _ _ h => h)
    fun returned => (Stands.meaning (leaveFunc_tags hown f.func.body.last)).pre fun _ _ h => ?_
  cases returned with
  | true =>
    rw [Flow.leaves_true] at h
    exact h
  | false =>
    cases x with
    | gone => exact h.elim
    | on ts called =>
      rw [hleaves ts called rfl] at h
      exact Stands.weaken h (fun _ _ => trivial) fun _ _ h => h

end

section

variable {env : Env} {prog : List (Coded env.mem)} {strict : Bool} {sigs : ℕ → Sig}

/-- A function without locals finds its variable `locals` to be `NULL`. The source never assigns it,
so this is a condition on the values that the environment has for what is indeterminate. -/
def NullLocals (prog : List (Coded env.mem)) : Prop :=
  ∀ f ∈ prog, f.func.hostAddr = none → f.func.localsCnt = 0 → ∀ k, env.uninit k = none

/-- Calls do what the check says, by induction on their depth. A host function has its effect
without running code of the program. A wasm function has it because its body is checked, and calls
at a depth that is one less. -/
theorem calls_sound (h : Checked strict prog sigs) (hnull : NullLocals prog) (depth : ℕ) :
    CallsKept strict (prog.map Coded.func) sigs (callDenote env prog depth) := by
  induction depth with
  | zero =>
    intro frame blocks locals ts ts' tail idx func hfunc _ _ _
    rw [List.getElem?_map] at hfunc
    obtain ⟨f, hf, rfl⟩ := Option.map_eq_some_iff.mp hfunc
    simp only [callDenote, hf, Option.elim_some]
    exact Triple.halt fun _ _ _ => .inl rfl
  | succ depth ih =>
    intro frame blocks locals ts ts' tail idx func hfunc heffect henter hroom
    rw [List.getElem?_map] at hfunc
    obtain ⟨f, hf, rfl⟩ := Option.map_eq_some_iff.mp hfunc
    simp only [callDenote, hf, Option.elim_some]
    cases hhost : f.func.hostAddr with
    | some addr =>
      rw [Coded.denote, hhost]
      have hroom := hroom (by rw [hhost]; rintro ⟨⟩)
      exact (Stands.meaning (hostFunc_tags hhost heffect hroom)).post fun _ _ _ h =>
        ⟨h.1, h.2.weaken (fun _ hf _ => hf) fun _ _ h => h⟩
    | none =>
      rw [FwModuleFunc.effect, if_pos hhost] at heffect
      obtain ⟨hargs, hts⟩ := Option.ite_none_right_eq_some.mp heffect
      obtain rfl := Option.some.inj hts
      refine (wasm_sound ih hhost (hnull f (List.mem_of_getElem? hf) hhost) (h idx f hf hhost)
        (henter hhost) (Nat.le_trans hargs (by simp))).post fun _ _ _ h => ⟨h.1, ?_⟩
      rw [List.append_assoc]
      exact h.2.weaken (fun _ _ => by simp) fun _ _ h => h

/-! ## Runs

The arguments of a run are `i32`s, and its result is the slot on top. -/

theorem pushArgs_tags {frame : Frame → Prop} {blocks : ℕ → Option ℕ} {locals : Option ℕ} :
    ∀ (args : List (List UInt8)) (ts : List UInt8),
      (strict = true → args.length + ts.length ≤ fwMaxStackSize) →
      Retags strict frame blocks locals ts (fwPushArgs args)
        (List.replicate args.length fwI32 ++ ts)
  | [], ts, _ => Triple.pure fun _ _ h => h
  | arg :: args, ts, hroom => by
    have hsplit : List.replicate (arg :: args).length fwI32 ++ ts =
        List.replicate args.length fwI32 ++ fwI32 :: ts := by
      rw [List.length_cons, List.replicate_succ', List.append_assoc]
      rfl
    rw [fwPushArgs, hsplit]
    refine Triple.bind (push_tags _ fun h => ?_) fun _ => pushArgs_tags args _ fun h => ?_
    · have := hroom h
      rw [List.length_cons] at this
      omega
    · have := hroom h
      rw [List.length_cons] at this ⊢
      omega

/-- The function can be called from outside, with an `i32` for each parameter, and leaves these
tags. An imported function takes its parameters off; a wasm function leaves its results above them.
-/
def Callable (sigs : ℕ → Sig) (idx : ℕ) (func : FwModuleFunc) (ts : List UInt8) : Prop :=
  let p := func.functype.paramCnt.toNat
  func.effect (sigs idx) (List.replicate p fwI32) = some ts ∧
    (func.hostAddr = none → p ≤ (sigs idx).depth)

/-- How a run returns: with `FW_OK`, with a result when one is asked for and there is one, and with
the operands that the function leaves. -/
structure Returned (func : FwModuleFunc) (ts : List UInt8) (rets : Bool)
    (x : Status × Option UInt32) (s : Machine) : Prop where
  /-- the status -/
  ok : x.1 = .ok
  /-- the result -/
  result : x.2.isSome ↔ rets = true ∧ func.functype.resCnt ≠ 0
  /-- the operands -/
  tags : s.ctx.tags = if rets = true ∧ func.functype.resCnt ≠ 0 then ts.tail else ts

/-- What a function leaves when it is called from outside, by `fw_module_run_func`: a call by index
in an empty context, with the arguments as the only slots. If it has results, there is a slot to pop
for the caller. -/
theorem callable_sound (h : Checked strict prog sigs) (hnull : NullLocals prog) {idx : ℕ}
    {f : Coded env.mem} (hf : prog[idx]? = some f) {ts : List UInt8}
    (hcallable : Callable sigs idx f.func ts) (depth : ℕ) :
    Triple (tagMonitor strict)
      (Stands (fun _ => True) (fun _ => none) none
        (List.replicate f.func.functype.paramCnt.toNat fwI32))
      (f.denote env (callDenote env prog depth))
      (fun status depth s => status = .ok ∧
        Stands (fun _ => True) (fun _ => none) none ts depth s) (Capped strict) ∧
      (f.func.functype.resCnt ≠ 0 → ts ≠ []) := by
  obtain ⟨heffect, henter⟩ := hcallable
  have hp := f.func.functype.paramCnt.toNat_lt
  have hm := f.func.functype.resCnt.toNat_lt
  have hres : f.func.functype.resCnt ≠ 0 → f.func.functype.resCnt.toNat ≠ 0 := fun hne h0 =>
    hne (UInt8.toNat_inj.mp h0)
  have hfunc : (prog.map Coded.func)[idx]? = some f.func := by rw [List.getElem?_map, hf]; rfl
  -- a call of it by index, in an empty context
  have hcall : (f.func.hostAddr ≠ none → strict = true → (ts ++ []).length ≤ fwMaxStackSize) →
      Triple (tagMonitor strict) (Stands (fun _ => True) (fun _ => none) none
        (List.replicate f.func.functype.paramCnt.toNat fwI32 ++ []))
        (callDenote env prog (depth + 1) idx)
        (fun status depth s => status = .ok ∧
          Stands (fun _ => f.func.hostAddr.isNone = false → True)
            (fun _ => none) none (ts ++ []) depth s) (Capped strict) :=
    calls_sound h hnull (depth + 1) hfunc heffect fun hwasm => by simpa using henter hwasm
  simp only [callDenote, hf, Option.elim_some, List.append_nil, implies_true] at hcall
  rw [FwModuleFunc.effect] at heffect
  by_cases hwasm : f.func.hostAddr = none
  · rw [if_pos hwasm] at heffect
    obtain ⟨-, hts⟩ := Option.ite_none_right_eq_some.mp heffect
    obtain rfl := Option.some.inj hts
    exact ⟨hcall (absurd hwasm), fun hne =>
      List.append_ne_nil_of_left_ne_nil ((h idx f hf hwasm).results hne) _⟩
  · rw [if_neg hwasm] at heffect
    obtain ⟨-, hts⟩ := Option.ite_none_right_eq_some.mp heffect
    obtain rfl := Option.some.inj hts
    refine ⟨hcall fun _ _ => ?_, fun hne => by simpa using fun h => absurd h (hres hne)⟩
    simp only [List.length_append, List.length_replicate, List.length_drop]
    exact Nat.le_trans (by omega : _ ≤ 512) (by decide)

/-- The meaning of a run of a function from outside keeps to the tags and ends with what the
function leaves. -/
theorem runDenote_sound (h : Checked strict prog sigs) (hnull : NullLocals prog) {idx : ℕ}
    {f : Coded env.mem} (hf : prog[idx]? = some f) {ts : List UInt8}
    (hcallable : Callable sigs idx f.func ts) {args : List (List UInt8)}
    (hargs : f.func.functype.paramCnt.toNat ≤ args.length) (rets : Bool) (stack : ℕ → Slot)
    (depth : ℕ) :
    Triple (tagMonitor strict) (fun depth s => depth = 0 ∧ s = fwModuleContextNew stack)
      (f.runDenote env prog depth args rets) (fun x _ s => Returned f.func ts rets x s)
      (Capped strict) := by
  obtain ⟨hsound, hne⟩ := callable_sound h hnull hf hcallable depth
  have hlen : (args.take f.func.functype.paramCnt.toNat).length =
      f.func.functype.paramCnt.toNat := List.length_take_of_le hargs
  have hp := f.func.functype.paramCnt.toNat_lt
  have hpush : Retags strict (fun _ => True) (fun _ => none) none []
      (fwPushArgs (args.take f.func.functype.paramCnt.toNat))
      (List.replicate f.func.functype.paramCnt.toNat fwI32) := by
    have hroom := Nat.le_trans (by omega : f.func.functype.paramCnt.toNat + 0 ≤ 256)
      (by decide : 256 ≤ fwMaxStackSize)
    have h := @pushArgs_tags strict (fun _ => True) (fun _ => none) none
      (args.take f.func.functype.paramCnt.toNat) [] fun _ => by rwa [hlen]
    rwa [hlen, List.append_nil] at h
  rw [Coded.runDenote, if_neg (Nat.not_lt.mpr hargs)]
  refine Triple.bind ((Stands.meaning hpush).pre ?_) fun _ => Triple.bind hsound fun status =>
    Triple.of_and ?_
  · rintro _ _ ⟨rfl, rfl⟩
    exact ⟨rfl, rfl, ⟨Nat.zero_le _, rfl⟩, by rintro _ _ ⟨⟩, rfl, trivial⟩
  · rintro rfl
    by_cases hrets : rets = true ∧ f.func.functype.resCnt ≠ 0
    · simp only [if_pos hrets]
      obtain ⟨t, ts', rfl⟩ := List.exists_cons_of_ne_nil (hne hrets.2)
      exact Triple.bind (Stands.meaning pop_tags) fun wrets => Triple.pure fun _ _ hs =>
        ⟨rfl, iff_of_true rfl hrets, by rw [if_pos hrets]; exact hs.2.tags⟩
    · simp only [if_neg hrets]
      exact Triple.pure fun _ _ hs =>
        ⟨rfl, iff_of_false (by simp) hrets, by rw [if_neg hrets]; exact hs.tags⟩

/-- A log without an error path, in which the limit is hit on a full stack only, and not at all when
the check is strict. -/
structure Clean (strict : Bool) (log : List Event) : Prop where
  /-- no instruction fails, and no function goes to its label `err` -/
  noErr : ∀ e ∈ log, e ≠ .err ∧ ∀ saved locals, e ≠ .errLabel saved locals
  /-- the limit is not hit by a pop -/
  limit : ∀ k, log[k]? = some .limit →
    strict = false ∧ (log.take k).foldl Event.depthAfter 0 = fwMaxStackSize

theorem clean_of_accepts {log : List Event} (h : (tagMonitor strict).Accepts 0 log) :
    Clean strict log := by
  refine ⟨h.forall fun depth e he => ?_, fun k hk => h.at_index hk⟩
  cases e with
  | err | errLabel => exact he.elim
  | slot | limit | fetch | enter | leave | ret | alloc | free | uninit | host =>
    exact ⟨by rintro ⟨⟩, fun _ _ => by rintro ⟨⟩⟩

/-- In a run of a program that passes the check (`h`), no error path is taken, nothing undefined
happens, and the limit is hit on a full stack only, and not at all when the check is strict. When
the run ends otherwise, it returns `FW_OK` and what the function leaves. The environment runs the
functions of the program (`hprog`), and the one that is run is called with an `i32` for each
parameter (`hcallable`, `hargs`). A function without locals has `NULL` in the variable for them
(`hnull`); with anything else in it, what it does is undefined. -/
theorem checked_sound (hprog : env.funcs = prog.map Coded.func) (h : Checked strict prog sigs)
    (hnull : NullLocals prog) {idx : ℕ} {f : Coded env.mem} (hf : prog[idx]? = some f)
    {ts : List UInt8} (hcallable : Callable sigs idx f.func ts) {args : List (List UInt8)}
    (hargs : f.func.functype.paramCnt.toNat ≤ args.length) (rets : Bool) (stack : ℕ → Slot)
    (n : ℕ) :
    let o := fwModuleRunFunc env n f.func args rets (fwModuleContextNew stack)
    Clean strict o.log ∧ (o.res = .error .fuel ∨ strict = false ∧ o.res = .error .exit ∨
      ∃ x s, o.res = .ok (x, s) ∧ Returned f.func ts rets x s) := by
  intro o
  have hsound := runDenote_sound h hnull hf hcallable hargs rets stack n
  have hreaches := fun s => (run_adequate hprog n f args rets s).reaches
  obtain ⟨hacc, hends⟩ := Reaches.triple (fun depth e he => by
    cases e with
    | fetch => exact ⟨trivial, rfl⟩
    | slot | limit | enter | leave | ret | alloc | free | uninit | host | errLabel | err =>
      cases he) hsound (fun _ hstray => hstray.elim (by rintro ⟨⟩) fun hs => by cases hs.2)
    hreaches (Nat.le_succ n) 0 _ ⟨rfl, rfl⟩
  refine ⟨clean_of_accepts hacc, ?_⟩
  rcases hr : o.res with e | ⟨x, s⟩
  · change Logged.Ends _ _ _ o.res at hends
    rw [hr] at hends
    rcases hends with rfl | hcapped
    · exact .inl rfl
    · obtain ⟨hstrict, he⟩ := hcapped.resolve_left (by rintro ⟨⟩)
      obtain rfl := Stop.halt.inj he
      exact .inr (.inl ⟨hstrict, rfl⟩)
  · change Logged.Ends _ _ _ o.res at hends
    rw [hr] at hends
    exact .inr (.inr ⟨x, s, rfl, hends⟩)

/-- When the check is strict (`h`) and the calls go down in some order (`hrank`), every run ends,
and it returns `FW_OK` and what the function leaves. The other conditions are those of
`checked_sound`, the one on functions without locals (`hnull`) among them. What is returned does not
depend on the step bound, once that is great enough. -/
theorem ranked_checked_returns {rank : ℕ → ℕ} (hprog : env.funcs = prog.map Coded.func)
    (h : Checked true prog sigs) (hrank : Ranked prog rank) (hnull : NullLocals prog) {idx : ℕ}
    {f : Coded env.mem} (hf : prog[idx]? = some f) {ts : List UInt8}
    (hcallable : Callable sigs idx f.func ts) {args : List (List UInt8)}
    (hargs : f.func.functype.paramCnt.toNat ≤ args.length) (rets : Bool) (stack : ℕ → Slot) :
    ∃ x s, Returned f.func ts rets x s ∧ ∃ N, ∀ n ≥ N,
      (fwModuleRunFunc env n f.func args rets (fwModuleContextNew stack)).res = .ok (x, s) := by
  have hends := (runDenote_sound h hnull hf hcallable hargs rets stack (rank idx) 0 _
    ⟨rfl, rfl⟩).2
  have hdepth := runDenote_ne_depth hrank hf args rets (fwModuleContextNew stack)
  have hagrees := (run_adequate hprog (rank idx) f args rets (fwModuleContextNew stack)).agrees
  generalize hm : f.runDenote env prog (rank idx) args rets (fwModuleContextNew stack) = m at *
  rcases m with ⟨log, e | ⟨x, s⟩⟩
  · rcases hends with rfl | ⟨hstrict, -⟩
    · exact absurd rfl hdepth
    · cases hstrict
  · obtain ⟨N, hN⟩ := hagrees ⟨log, .ok (x, s)⟩ hm.symm
    exact ⟨x, s, hends, N, fun n hn => (Outcome.mk.inj (hN n hn)).2⟩

end

/-! ### A checked program

A program with a branch, a call, a host function, a local and a construct in it. -/

/-- The first function gives 1 when its argument is not 0. Else it calls the host and the second
function, drops what they leave and gives 1 as well. The second function leaves a label below its
result. -/
def checkedCodes : List Code :=
  [.instr 0x20 [0x00] (.ifThen [0x40] (.instr 0x41 [0x01] (.instr 0x0f [] .nil))
      (.instr 0x20 [0x00] (.instr 0x10 [0x00] (.instr 0x1a [] (.instr 0x10 [0x02]
        (.instr 0x1a [] (.instr 0x1a [] (.instr 0x20 [0x00] (.instr 0x45 [] .nil))))))))),
    .block false [0x40] (.instr 0x41 [0x05] .nil) .nil]

/-- Their bytes. -/
def checkedEnv : Env := zeroEnv (memOf (checkedCodes.flatMap Code.body)) []

/-- The functions as the loader leaves them. -/
def checkedFuncs : List FwModuleFunc :=
  [⟨0, ⟨1, 1, [fwI32, fwI32]⟩, ⟨0, 21⟩, none, .init⟩, ⟨1, ⟨0, 1, [fwI32]⟩, ⟨21, 27⟩, none, .init⟩]

/-- What is promised of them. -/
def checkedSigs (idx : ℕ) : Sig := if idx = 1 then ⟨[fwI32], 1⟩ else ⟨[fwI32, fwInstrBlock], 1⟩

/-- They encode the trees, with empty lists of blocks. -/
theorem checked_sources : List.Forall₂ (Source checkedEnv.mem) checkedFuncs checkedCodes := by
  have hmem := holds_memOf (checkedCodes.flatMap Code.body)
  rw [checkedCodes, List.flatMap_cons, List.flatMap_singleton, holds_append] at hmem
  obtain ⟨hm₁, hm₂⟩ := hmem
  have c32 : ∀ {op : UInt8} (b : UInt8), Leb128.Encoding 5 [b] →
      (∃ instr, fwGetInstr op = some instr ∧ instr.consume = some .c32) → StraightAsRead op [b] :=
    fun b hb ⟨instr, hi, hc⟩ => ⟨instr, .c32, hi, hc, hb⟩
  have plain : ∀ {op : UInt8},
      (∃ instr, fwGetInstr op = some instr ∧ instr.consume = some .none_) → StraightAsRead op [] :=
    fun ⟨instr, hi, hc⟩ => ⟨instr, .none_, hi, hc, rfl⟩
  refine .cons ⟨rfl, rfl, ?_, by decide, hm₁, rfl⟩ (.cons ⟨rfl, rfl, ?_, by decide, hm₂, rfl⟩ .nil)
  · exact ⟨c32 _ (by decide) ⟨_, rfl, rfl⟩, by decide,
      ⟨c32 _ (by decide) ⟨_, rfl, rfl⟩, plain ⟨_, rfl, rfl⟩, trivial⟩,
      c32 _ (by decide) ⟨_, rfl, rfl⟩, c32 _ (by decide) ⟨_, rfl, rfl⟩, plain ⟨_, rfl, rfl⟩,
      c32 _ (by decide) ⟨_, rfl, rfl⟩, plain ⟨_, rfl, rfl⟩, plain ⟨_, rfl, rfl⟩,
      c32 _ (by decide) ⟨_, rfl, rfl⟩, plain ⟨_, rfl, rfl⟩, trivial⟩
  · exact ⟨by decide, ⟨c32 _ (by decide) ⟨_, rfl, rfl⟩, trivial⟩, trivial⟩

/-- An imported function that takes one value and gives one. -/
def checkedHost : FwModuleFunc := ⟨1, ⟨1, 1, [fwI32, fwI64]⟩, ⟨0, 0⟩, some 1, .init⟩

/-- With a host function in front they are a program that passes the check. It is also ranked, with
the function that calls the others one rank above them, and without functions that would read an
uninitialised `locals`. -/
theorem exists_checked : ∃ (env : Env) (prog : List (Coded env.mem)) (f : Coded env.mem),
    env.funcs = prog.map Coded.func ∧ prog.map Coded.code = .nil :: checkedCodes ∧
      Checked true prog checkedSigs ∧ Ranked prog (fun idx => if idx = 1 then 1 else 0) ∧
      NullLocals prog ∧ prog[1]? = some f ∧ f.func.functype.paramCnt = 1 ∧
      f.func.functype.resCnt = 1 ∧ Callable checkedSigs 1 f.func [fwI32, fwI32] := by
  obtain ⟨h₁, h₂⟩ := List.forall₂_cons.mp checked_sources
  obtain ⟨h₂, -⟩ := List.forall₂_cons.mp h₂
  obtain ⟨b₁, he₁⟩ := h₁.exists_encodes
  obtain ⟨b₂, he₂⟩ := h₂.exists_encodes
  have hhost : checkedHost.hostAddr = none → Encodes checkedEnv.mem checkedHost .nil := by rintro ⟨⟩
  let host : Coded checkedEnv.mem := ⟨checkedHost, .nil, hhost⟩
  let f₁ : Coded checkedEnv.mem := ⟨_, _, fun _ => he₁⟩
  let f₂ : Coded checkedEnv.mem := ⟨_, _, fun _ => he₂⟩
  refine ⟨{ checkedEnv with funcs := [host, f₁, f₂].map Coded.func }, [host, f₁, f₂], f₁, rfl, rfl,
    fun idx f hf hwasm => ?_, fun idx f hf idx' hidx' _ => ?_, fun f _ _ _ _ => rfl, rfl, rfl, rfl,
    ?_⟩
  · match idx, hf with
    | 0, hf =>
      obtain rfl := Option.some.inj hf
      cases hwasm
    | 1, hf =>
      obtain rfl := Option.some.inj hf
      exact ⟨Nat.le_refl 1, fun _ => List.cons_ne_nil _ _, _, rfl, by rintro _ _ ⟨⟩; rfl⟩
    | 2, hf =>
      obtain rfl := Option.some.inj hf
      exact ⟨Nat.zero_le _, fun _ => List.cons_ne_nil _ _, _, rfl, by rintro _ _ ⟨⟩; rfl⟩
  · match idx, hf with
    | 0, hf =>
      obtain rfl := Option.some.inj hf
      cases hidx'
    | 1, hf =>
      obtain rfl := Option.some.inj hf
      rw [show f₁.code.callees = [0, 2] from rfl] at hidx'
      exact (by decide : ∀ i ∈ [0, 2], (if i = 1 then 1 else 0) < 1) idx' hidx'
    | 2, hf =>
      obtain rfl := Option.some.inj hf
      cases hidx'
  · exact ⟨rfl, fun _ => Nat.le_refl 1⟩

/-- It takes no error path, however long it runs and whatever its arguments are. -/
theorem checkedCodes_clean : ∃ (env : Env) (prog : List (Coded env.mem)) (f : Coded env.mem),
    prog.map Coded.code = .nil :: checkedCodes ∧ prog[1]? = some f ∧
      ∀ (arg : List UInt8) (rets : Bool) (stack : ℕ → Slot) (n : ℕ),
        let o := fwModuleRunFunc env n f.func [arg] rets (fwModuleContextNew stack)
        Clean true o.log ∧ (o.res = .error .fuel ∨ true = false ∧ o.res = .error .exit ∨
          ∃ x s, o.res = .ok (x, s) ∧ Returned f.func [fwI32, fwI32] rets x s) := by
  obtain ⟨env, prog, f, hprog, hcodes, hchecked, -, hnull, hf, hparams, -, hcallable⟩ :=
    exists_checked
  exact ⟨env, prog, f, hcodes, hf, fun arg rets stack n =>
    checked_sound hprog hchecked hnull hf hcallable (by rw [hparams]; rfl) rets stack n⟩

/-- It always gives a result, since its calls go down. -/
theorem checkedCodes_returns : ∃ (env : Env) (prog : List (Coded env.mem)) (f : Coded env.mem),
    prog.map Coded.code = .nil :: checkedCodes ∧ prog[1]? = some f ∧
      ∀ (arg : List UInt8) (stack : ℕ → Slot), ∃ x s, x.2.isSome ∧ s.ctx.tags = [fwI32] ∧
        ∃ N, ∀ n ≥ N, (fwModuleRunFunc env n f.func [arg] true (fwModuleContextNew stack)).res =
          .ok (x, s) := by
  obtain ⟨env, prog, f, hprog, hcodes, hchecked, hrank, hnull, hf, hparams, hres, hcallable⟩ :=
    exists_checked
  refine ⟨env, prog, f, hcodes, hf, fun arg stack => ?_⟩
  have hargs : f.func.functype.paramCnt.toNat ≤ [arg].length := by rw [hparams]; rfl
  obtain ⟨x, s, hreturned, hends⟩ :=
    ranked_checked_returns hprog hchecked hrank hnull hf hcallable hargs true stack
  have hresult : true = true ∧ f.func.functype.resCnt ≠ 0 := ⟨rfl, by rw [hres]; decide⟩
  refine ⟨x, s, hreturned.result.mpr hresult, ?_, hends⟩
  rw [hreturned.tags, if_pos hresult]
  rfl

end FastWasm
