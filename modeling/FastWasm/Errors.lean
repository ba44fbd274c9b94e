import FastWasm.Compile
import FastWasm.Stable

/-!
# Which errors are reported

The dispatch loops drop the status of every handler, and `_fw_module_run_func` falls through its
labels to `return FW_OK`. So an error that an instruction takes never reaches the caller of
`fw_module_run`; only a host function that is run directly reports its own.

An error path is an event of the log (`Event.err`), which every `goto` to an error label has. What
is said about a run is then about its log and its result. For host functions the two go together,
and that is proved of their parts by following the log with a monitor that remembers whether an
error path was taken. For wasm functions nothing of the kind is needed, since every way out of one
is `FW_OK`.
-/

namespace FastWasm

open Logged

/-- Remembers whether an error path was taken. -/
def errMonitor : Monitor Bool Event where
  step seen e := match e with
    | .err => true
    | _ => seen
  ok _ _ := True

/-- No error path was taken so far; nothing is said of the machine. -/
def NoErr (seen : Bool) (_ : Machine) : Prop := seen = false

theorem err_after_iff {l : List Event} : errMonitor.after false l = true ↔ Event.err ∈ l := by
  have hgen : ∀ seen, errMonitor.after seen l = true ↔ seen = true ∨ Event.err ∈ l := by
    induction l with
    | nil => intro seen; simp
    | cons e l ih =>
      intro seen
      rw [Monitor.after_cons, ih]
      cases e <;> simp [errMonitor]
  simpa using hgen false

section

variable {env : Env} {r : Interp} {func : FwModuleFunc}

/-! ## Host functions

`fw_module_run_host_func` fails over a tag that is not that of the parameter and over a number of
arguments that the `switch` has no case for, and returns `FW_ERR` for both. So its status and its
log say the same. -/

/-- Computations without an error path, from a log without one. -/
abbrev KeepsNoErr {α : Type} (m : Run α) : Prop :=
  Keeps errMonitor NoErr (fun _ seen => seen = false) m

theorem keepsNoErr_pop (peek : Bool) : KeepsNoErr (fwPop peek) := by
  intro seen s hs
  rw [fwPop_apply]
  split
  · exact ⟨⟨trivial, trivial⟩, hs⟩
  · exact ⟨⟨trivial, trivial⟩, hs⟩

theorem keepsNoErr_push (st : Slot) : KeepsNoErr (fwPush st) := by
  intro seen s hs
  rw [fwPush_apply]
  split
  · exact ⟨⟨trivial, trivial⟩, hs⟩
  · exact ⟨⟨trivial, trivial⟩, hs⟩

theorem keepsNoErr_pushRets (ft : FwModuleType) (rets : ℕ → UInt64) :
    ∀ (n i : ℕ), KeepsNoErr (fwPushRets ft rets n i)
  | 0, i => .pure _
  | n + 1, i => by
    rw [fwPushRets]
    cases ft.val[ft.paramCnt.toNat]? with
    | none => exact Triple.halt fun _ _ hs => hs
    | some type => exact (keepsNoErr_push _).bind fun _ => keepsNoErr_pushRets ft rets n (i + 1)

theorem keepsNoErr_callHost (n addr retCnt : ℕ) (argv : List UInt64) :
    KeepsNoErr (_fwModuleRunHostFunc env n addr retCnt argv) := by
  rw [_fwModuleRunHostFunc]
  cases fwHostArgs argv with
  | none => exact .pure _
  | some args =>
    exact Triple.emit_bind (R := NoErr) (fun _ _ hs => ⟨trivial, hs⟩)
      (Triple.pure fun _ _ hs => hs)

/-- An error, and its report: the event is there, whatever is returned. -/
theorem err_report {α : Type} (a : α) {Q : α → Bool → Machine → Prop} {H : Halt → Bool → Prop}
    (hQ : ∀ s, Q a true s) : Triple errMonitor NoErr (do emit .err; pure a : Run α) Q H :=
  Triple.emit_bind (R := fun seen _ => seen = true) (fun _ _ _ => ⟨trivial, rfl⟩)
    (Triple.pure fun _ s hs => hs ▸ hQ s)

/-- Popping the arguments fails exactly when it takes the error path. -/
theorem popArgs_err (ft : FwModuleType) :
    ∀ (n : ℕ) (args : List UInt64), Triple errMonitor NoErr (fwPopArgs ft n args)
      (fun res seen _ => seen = true ↔ res = none) fun _ seen => seen = false
  | 0, args => Triple.pure fun seen _ hs =>
      iff_of_false (by rw [show seen = false from hs]; exact Bool.false_ne_true) (by simp)
  | n + 1, args => by
    rw [fwPopArgs]
    refine Triple.bind (keepsNoErr_pop false) fun st => ?_
    cases ft.val[n]? with
    | none => exact Triple.halt fun _ _ hs => hs
    | some type =>
      by_cases htype : st.type ≠ type
      · simp only [if_pos htype]
        exact err_report none fun _ => iff_of_true rfl rfl
      · simp only [if_neg htype]
        exact popArgs_err ft n _

/-- A host function returns `FW_ERR` exactly when it takes an error path. -/
theorem hostFunc_err (addr : ℕ) :
    Triple errMonitor NoErr (fwModuleRunHostFunc env func addr)
      (fun status seen _ => seen = true ↔ status = .err) fun _ seen => seen = false := by
  refine Triple.bind (popArgs_err _ _ _) fun args => ?_
  cases args with
  | none => exact Triple.pure fun _ _ h => iff_of_true (h.mpr rfl) rfl
  | some args =>
    refine Triple.pre (P := NoErr) ?_ fun seen _ h => ?_
    · refine Triple.bind (R := fun _ => NoErr) ?_ fun n => ?_
      · exact fun _ _ hs => ⟨trivial, hs⟩
      · refine Triple.bind (keepsNoErr_callHost _ _ _ _) fun rets => ?_
        cases rets with
        | none => exact err_report _ fun _ => iff_of_true rfl rfl
        | some rets =>
          exact Triple.bind (keepsNoErr_pushRets _ _ _ _) fun _ => Triple.pure fun seen _ hs =>
            iff_of_false (by rw [show seen = false from hs]; exact Bool.false_ne_true) (by simp)
    · simpa [NoErr] using h

/-! ## Functions

All ways out of `_fw_module_run_func` lead to one `return`. -/

/-- Whatever way the loop of a function ends, the function returns `FW_OK`. The label `err` is no
exception: the code behind it frees the block of the caller, if there is one, and returns `FW_OK`
like the rest. -/
theorem leaveFunc_ok {saveLocals : Option ℕ} {exit : LoopExit} {s s' : Machine} {status : Status}
    (h : (fwLeaveFunc saveLocals exit s).res = .ok (status, s')) : status = .ok := by
  have herr : ∀ {s}, (fwErrLabel saveLocals s).res = .ok (status, s') → status = .ok := by
    intro s h
    rw [fwErrLabel, get_bind_apply] at h
    obtain ⟨_, _, -, h, -⟩ := bind_eq_ok h
    obtain ⟨_, _, -, h, -⟩ := bind_eq_ok h
    obtain ⟨_, _, -, h, -⟩ := bind_eq_ok h
    exact (Prod.mk.inj (Except.ok.inj h)).1.symm
  cases exit with
  | done body =>
    rw [fwLeaveFunc, get_bind_apply] at h
    obtain ⟨_, s₁, -, h, -⟩ := bind_eq_ok h
    rw [get_bind_apply, set_bind_apply] at h
    by_cases hpos : body.pos ≠ body.last
    · rw [if_pos hpos] at h
      exact herr h
    · rw [if_neg hpos] at h
      obtain ⟨_, _, -, h, -⟩ := bind_eq_ok h
      exact (Prod.mk.inj (Except.ok.inj h)).1.symm
  | badOpcode =>
    obtain ⟨_, _, -, h, -⟩ := bind_eq_ok h
    exact herr h
  | strErr =>
    obtain ⟨_, _, -, h, -⟩ := bind_eq_ok h
    exact (Prod.mk.inj (Except.ok.inj h)).1.symm

/-- A wasm function that returns returns `FW_OK`, whatever its body has met. -/
theorem runFunc_ok (hhost : func.hostAddr = none) {s s' : Machine} {status : Status}
    (h : (_fwModuleRunFunc env r func s).res = .ok (status, s')) : status = .ok := by
  rw [_fwModuleRunFunc, hhost] at h
  obtain ⟨_, _, -, h, -⟩ := bind_eq_ok h
  obtain ⟨_, _, -, h, -⟩ := bind_eq_ok h
  exact leaveFunc_ok h

end

/-! ## Whole runs

A module is run through an export, which is one of an imported or of a defined function. The status
of a run is that of the function, or an error before it. -/

theorem keepsNoErr_pushArgs : ∀ args, KeepsNoErr (fwPushArgs args)
  | [] => .pure _
  | _ :: args => (keepsNoErr_push _).bind fun _ => keepsNoErr_pushArgs args

/-- A host function that is run directly reports its errors. It is the only callee whose `FW_ERR`
comes back to `fw_module_run_func`, which passes it on. -/
theorem moduleRunFunc_host (env : Env) {func : FwModuleFunc} {addr : ℕ}
    (hhost : func.hostAddr = some addr) (n : ℕ) (args : List (List UInt8)) (rets : Bool) :
    Triple errMonitor NoErr (fwModuleRunFunc env n func args rets)
      (fun a seen _ => seen = true → a.1 = .err) fun _ seen => seen = false := by
  have hpure : ∀ {v : Option UInt32}, Triple errMonitor NoErr (pure (Status.ok, v) : Run _)
      (fun a seen _ => seen = true → a.1 = .err) fun _ seen => seen = false := fun {v} =>
    Triple.pure fun seen _ hs hseen => by
      rw [show seen = false from hs] at hseen
      cases hseen
  rw [fwModuleRunFunc]
  by_cases hparam : func.functype.paramCnt.toNat > args.length
  · rw [if_pos hparam]
    exact Triple.pure fun _ _ _ _ => rfl
  · rw [if_neg hparam]
    refine Triple.bind (keepsNoErr_pushArgs _) fun _ => ?_
    have hfunc : Triple errMonitor NoErr ((interp env n).func func)
        (fun status seen _ => seen = true ↔ status = .err) fun _ seen => seen = false := by
      cases n with
      | zero => exact Triple.halt fun _ _ hs => hs
      | succ n =>
        simp only [interp, _fwModuleRunFunc, hhost]
        exact hostFunc_err addr
    refine Triple.bind hfunc fun status => ?_
    cases status with
    | err => exact Triple.pure fun _ _ _ _ => rfl
    | ok =>
      refine Triple.pre (P := NoErr) ?_ fun seen _ h => by simpa [NoErr] using h
      by_cases hrets : rets = true ∧ func.functype.resCnt ≠ 0
      · simp only [if_pos hrets]
        exact Triple.bind (keepsNoErr_pop false) fun _ => hpure
      · simp only [if_neg hrets]
        exact hpure

/-- A wasm function that is run fails only when it is not run at all, because there are fewer
arguments than parameters. -/
theorem moduleRunFunc_wasm {env : Env} {n : ℕ} {func : FwModuleFunc}
    {args : List (List UInt8)} {rets : Bool} {s s' : Machine} {v : Option UInt32}
    (hhost : func.hostAddr = none)
    (h : (fwModuleRunFunc env n func args rets s).res = .ok ((.err, v), s')) :
    (fwModuleRunFunc env n func args rets s).log = [] := by
  unfold fwModuleRunFunc at h ⊢
  by_cases hparam : func.functype.paramCnt.toNat > args.length
  · rw [if_pos hparam]
    rfl
  · rw [if_neg hparam] at h
    obtain ⟨_, s₁, -, h, -⟩ := bind_eq_ok h
    obtain ⟨status, s₂, hfunc, h, -⟩ := bind_eq_ok h
    have hstatus : status = .ok := by
      cases n with
      | zero => cases hfunc
      | succ n => exact runFunc_ok hhost hfunc
    subst hstatus
    by_cases hrets : rets = true ∧ func.functype.resCnt ≠ 0
    · simp only [if_pos hrets] at h
      obtain ⟨_, _, -, h, -⟩ := bind_eq_ok h
      cases h
    · simp only [if_neg hrets] at h
      cases h

/-- A run of `fw_module_run` in which some instruction takes an error path (`herr`) returns `FW_ERR`
if and only if the function it runs is an imported one. The module, the name, the arguments and the
step bound are any; a run that has not ended within the bound returns nothing. -/
theorem error_reported_iff {env : Env} {n : ℕ} {module : FwModule} {funcname : List UInt8}
    {args : List (List UInt8)} {rets : Bool} {stack : ℕ → Slot}
    (herr : Event.err ∈
      (fwModuleRun env n module funcname args rets (fwModuleContextNew stack)).log) :
    (∃ v s, (fwModuleRun env n module funcname args rets (fwModuleContextNew stack)).res =
        .ok ((.err, v), s)) ↔
      ∃ func, fwModuleGetExportFunc module funcname = some (some func) ∧
        func.hostAddr.isSome := by
  unfold fwModuleRun at herr ⊢
  rcases hf : fwModuleGetExportFunc module funcname with _ | _ | func
  · rw [hf] at herr
    cases herr
  · rw [hf] at herr
    cases herr
  simp only [hf] at herr ⊢
  cases hh : func.hostAddr with
  | none =>
    refine iff_of_false ?_ ?_
    · rintro ⟨v, s, h⟩
      rw [moduleRunFunc_wasm hh h] at herr
      cases herr
    · rintro ⟨func', hfunc', hsome⟩
      obtain rfl := Option.some.inj (Option.some.inj hfunc')
      rw [hh] at hsome
      cases hsome
  | some addr =>
    refine iff_of_true ?_ ⟨func, rfl, by rw [hh]; rfl⟩
    have hends := (moduleRunFunc_host { env with funcs := module.inst.getD [] } hh n args
      rets false (fwModuleContextNew stack) rfl).2
    rw [err_after_iff.mpr herr] at hends
    rcases hres : (fwModuleRunFunc { env with funcs := module.inst.getD [] } n func args rets
      (fwModuleContextNew stack)).res with h | ⟨⟨status, v⟩, s⟩ <;> rw [hres] at hends
    · cases hends
    · obtain rfl : status = .err := hends rfl
      exact ⟨v, s, rfl⟩

/-! ### A run with an error -/

/-- An environment in which everything undetermined is zero. -/
def zeroEnv (mem : Mem) (funcs : List FwModuleFunc) : Env where
  mem := mem
  funcs := funcs
  host _ _ _ := 0
  rets _ _ := 0
  uninit _ := none

/-- A function with one local whose body is an unknown opcode. -/
def badFunc : FwModuleFunc := ⟨1, ⟨0, 0, []⟩, ⟨0, 1⟩, none, .init⟩

/-- A host function with a parameter of type `f32`. -/
def hostFunc : FwModuleFunc := ⟨0, ⟨1, 0, [fwF32]⟩, ⟨0, 0⟩, some 0, .init⟩

/-- A compiled module that exports one function as `f`. -/
def exporting (func : FwModuleFunc) : FwModule :=
  ⟨[], [], [func], [⟨[0x66], 0, 0, some func⟩], some [func]⟩

/-- The host function is passed an `i32` and reports it. -/
theorem error_reported_iff_host :
    Event.err ∈ (fwModuleRun (zeroEnv (memOf []) []) 1 (exporting hostFunc) [0x66] [[0x31]] false
        (fwModuleContextNew fun _ => .plain 0 0)).log ∧
      ((∃ v s, (fwModuleRun (zeroEnv (memOf []) []) 1 (exporting hostFunc) [0x66] [[0x31]] false
          (fwModuleContextNew fun _ => .plain 0 0)).res = .ok ((.err, v), s)) ↔
        ∃ func, fwModuleGetExportFunc (exporting hostFunc) [0x66] = some (some func) ∧
          func.hostAddr.isSome) := by
  have herr : Event.err ∈ (fwModuleRun (zeroEnv (memOf []) []) 1 (exporting hostFunc) [0x66]
      [[0x31]] false (fwModuleContextNew fun _ => .plain 0 0)).log :=
    List.mem_of_getElem? (i := 2) rfl
  exact ⟨herr, error_reported_iff herr⟩

/-- An unknown opcode in an exported function, and the run returns `FW_OK`. -/
theorem error_unreported :
    ∃ s, Event.err ∈ (fwModuleRun (zeroEnv (memOf [0xff]) []) 2 (exporting badFunc) [0x66] [] false
        (fwModuleContextNew fun _ => .plain 0 0)).log ∧
      (fwModuleRun (zeroEnv (memOf [0xff]) []) 2 (exporting badFunc) [0x66] [] false
        (fwModuleContextNew fun _ => .plain 0 0)).res = .ok ((.ok, none), s) :=
  ⟨_, List.mem_of_getElem? (i := 3) rfl, rfl⟩

end FastWasm
