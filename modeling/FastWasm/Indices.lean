import FastWasm.Align
import FastWasm.Exports
import FastWasm.Loader
import FastWasm.Returns

/-!
# Runtime indices

The handlers of `local.get`, `local.set`, `local.tee` and `call` use the index that they read as it
is. Validation reads it too, but drops it: the row of each has `fw_instr_consume_32`, which checks
nothing. So an index is in range at run time when the bytes of the function have it in range at
every instruction, and as long as every `return` leaves the function it is in (`indices_in_range`).
Nothing ensures either (`index_out_of_range`).

The condition is one on the steps of a run before the instruction that is asked about. A step that
enters a function has to enter one whose bytes are right, and a `return` has to go by a frame that
does not end before its function does; otherwise the loop of a caller may go on in the middle of an
instruction, where other indices are read. With it the cursor stays at the instructions that
validation walked over, across calls, and the bytes there are those that were checked.
-/

namespace FastWasm

open Logged

/-! ## Indices in the bytes

An index is a number behind an opcode. Where it is read by the executor the window may be narrower
than the one it was validated in. -/

/-- What bounds the index that a handler reads: the size of the locals, or the number of
functions. -/
def RunFn.indexBound (count : ℕ) (func : FwModuleFunc) : RunFn → Option ℕ
  | .localGet | .localSet | .localTee => some func.localsCnt
  | .call => some count
  | _ => none

/-- The bound of the instruction at a position, when it has one. -/
def indexBoundAt (mem : Mem) (count : ℕ) (func : FwModuleFunc) (pos : ℕ) : Option ℕ :=
  ((fwGetInstr (mem pos)).bind (·.run)).bind (·.indexBound count func)

/-- The index that the instruction at a position reads, in a window that ends at `last`. -/
def indexAt (mem : Mem) (last pos : ℕ) : Option ℕ :=
  match fwStrLebGetu mem ⟨pos + 1, last⟩ 32 with
  | .got idx _ => some idx.toUInt32.toNat
  | .hang | .strErr => none

/-- The instruction at a position uses no index, or one in range. -/
def IndexInRange (mem : Mem) (count : ℕ) (func : FwModuleFunc) (last pos : ℕ) : Prop :=
  ∀ bound ∈ indexBoundAt mem count func pos, ∀ idx ∈ indexAt mem last pos, idx < bound

instance (mem : Mem) (count : ℕ) (func : FwModuleFunc) (last pos : ℕ) :
    Decidable (IndexInRange mem count func last pos) :=
  inferInstanceAs (Decidable (∀ bound ∈ _, ∀ idx ∈ _, idx < bound))

/-- Every index is in range where validation walks: that of a local below the number of locals of
the function, that of a call below the number of functions of the module. -/
def FwModuleFunc.IndicesInRange (mem : Mem) (count : ℕ) (func : FwModuleFunc) : Prop :=
  ∀ pos ∈ (fwModuleValidateInst mem func.body .init).log,
    IndexInRange mem count func func.body.last pos

instance (mem : Mem) (count : ℕ) (func : FwModuleFunc) :
    Decidable (func.IndicesInRange mem count) :=
  inferInstanceAs (Decidable (∀ pos ∈ _, IndexInRange mem count func func.body.last pos))

section

variable {mem : Mem} {count : ℕ} {func : FwModuleFunc} {last fin pos idx : ℕ}

/-- What is read in a window is read in a wider one, and is the same number. -/
theorem indexAt_window (hle : last ≤ fin) (h : idx ∈ indexAt mem last pos) :
    idx ∈ indexAt mem fin pos := by
  unfold indexAt at h ⊢
  rcases hr : fwStrLebGetu mem ⟨pos + 1, last⟩ 32 with _ | _ | ⟨val, body'⟩
  · rw [hr] at h
    cases h
  · rw [hr] at h
    cases h
  · rw [getu_window hle hr]
    rw [hr] at h
    exact h

theorem IndexInRange.window (h : IndexInRange mem count func fin pos) (hle : last ≤ fin) :
    IndexInRange mem count func last pos :=
  fun bound hbound idx hidx => h bound hbound idx (indexAt_window hle hidx)

end

/-! ## Indices in a log

Which function is running is told by the log, and so is whether the bytes that it runs are those
that were checked. -/

/-- The instruction at a position, executed by the innermost function, uses no index, or one in
range. The window may be any that does not reach beyond the function. -/
def CallLog.InRange (mem : Mem) (count : ℕ) (c : CallLog) (pos : ℕ) : Prop :=
  ∃ func depth rest, c.opened = (func, depth) :: rest ∧
    ∀ last ≤ func.body.last, IndexInRange mem count func last pos

/-- What a step has to do for the indices to stay in range: the function it enters has them in range
in its bytes, and the frame that it returns by does not end before its function does. -/
def Event.KeepsIndices (mem : Mem) (count : ℕ) : Event → Prop
  | .enter func _ => func.IndicesInRange mem count
  | .ret func before _ _ => func.body.last ≤ before.frame.fin
  | _ => True

/-- Follows the calls, and whether all steps so far kept the indices in range. If so, the next
instruction has to have its own in range. -/
def indexMonitor (mem : Mem) (count : ℕ) : Monitor (CallLog × Prop) Event where
  step g e := (g.1.step e, g.2 ∧ e.KeepsIndices mem count)
  ok g e := match e with
    | .fetch pos _ => g.2 → g.1.InRange mem count pos
    | _ => True

section

variable {mem : Mem} {count : ℕ} {env : Env} {func : FwModuleFunc} {body : FwStr}
  {opened : List (FwModuleFunc × ℕ)}

theorem indexMonitor_after :
    ∀ (g : CallLog × Prop) (l : List Event), (indexMonitor mem count).after g l =
      (l.foldl CallLog.step g.1, g.2 ∧ ∀ e ∈ l, e.KeepsIndices mem count)
  | g, [] => by simp
  | g, e :: l => by
    rw [Monitor.after_cons, indexMonitor_after]
    simp only [indexMonitor, List.foldl_cons, List.forall_mem_cons, and_assoc]

theorem indexMonitor_quiet (g : CallLog × Prop) (e : Event) (he : e.Quiet) :
    (indexMonitor mem count).ok g e ∧ (indexMonitor mem count).step g e = g := by
  cases e with
  | fetch | enter | leave | ret => exact he.elim
  | slot | limit | alloc | free | uninit | host | errLabel | err =>
    exact ⟨trivial, Prod.ext rfl (and_true _)⟩

/-- The calls that are open, unless a step did not keep the indices. -/
def InOpened (opened : List (FwModuleFunc × ℕ)) (g : CallLog × Prop) (_ : Machine) : Prop :=
  g.2 → g.1.opened = opened

/-- What leaves the calls open that are, and has kept the indices in range. -/
abbrev KeepsOpened {α : Type} (mem : Mem) (count : ℕ) (opened : List (FwModuleFunc × ℕ))
    (m : Run α) : Prop :=
  Keeps (indexMonitor mem count) (InOpened opened) (fun _ _ => True) m

/-- A loop over the bytes of a function stays at its instructions. -/
abbrev LoopFollows (mem : Mem) (count : ℕ) (r : Interp) (func : FwModuleFunc)
    (opened : List (FwModuleFunc × ℕ)) (body : FwStr) : Prop :=
  Triple (indexMonitor mem count)
    (AtCursor (InOpened opened) (fun g => g.2) func (fwModuleValidateInst mem func.body .init).log
      body) (r.loop func body)
    (ExitCursor (InOpened opened) (fun g => g.2) func
      (fwModuleValidateInst mem func.body .init).log) fun _ _ => True

theorem index_follows (mem : Mem) (count : ℕ) (opened : List (FwModuleFunc × ℕ)) :
    Follows (indexMonitor mem count) (InOpened opened) (fun g => g.2) fun g => ¬ g.2 where
  stable := stable_frame (J := fun g _ => g.2 → g.1.opened = opened) indexMonitor_quiet
  live_or_dead _ := Classical.em _
  not_live h := h
  of_dead h hg := absurd hg h
  ok_of_dead g e h := by
    cases e <;> first | exact trivial | exact fun hg => absurd hg h
  dead_step _ _ h hg := h hg.1

/-- A `return` by a frame that does not end before the function ends it. -/
theorem return_indices {l : List ℕ} (hle : body.last ≤ func.body.last) :
    Triple (indexMonitor mem count) (InOpened opened) (fwInstrRunReturn func body)
      (fun x => AtCursor (InOpened opened) (fun g => g.2) func l x.2) fun _ _ => True := by
  refine Triple.get_bind fun s₀ => ?_
  have hmove := fun oldpos i => Triple.of_spares (StackOnly.moveRetsTo oldpos i).frame
    (J := fun g _ => g.2 → g.1.opened = opened) (M := indexMonitor mem count) indexMonitor_quiet
  refine Triple.bind ((hmove _ _).pre fun _ _ h => h.1) fun _ => Triple.get_bind fun s₁ =>
    Triple.emit_bind (R := fun g s => InOpened opened g s ∧
      (g.2 → func.body.last ≤ s₀.ctx.frame.fin)) (fun g s hs => ⟨trivial, ?_, fun hg => hg.2⟩)
      (Triple.pure fun g s hs => ⟨hs.1, fun hg => ⟨hle, .inr (.inr (hs.2 hg))⟩⟩)
  exact fun hg => hs.1 hg.1

/-- A function that is run, when its loop stays at its instructions. Either its indices are in
range, and the walk of the validator says where its instructions start, or the step that entered it
did not meet the condition and nothing more is asked. -/
theorem func_indices {r : Interp} (hval : func.hostAddr = none → func.Validated env.mem)
    (hloop : func.Validated env.mem → func.IndicesInRange env.mem count → ∀ depth,
      LoopFollows env.mem count r func ((func, depth) :: opened) func.body) :
    KeepsOpened env.mem count opened (_fwModuleRunFunc env r func) := by
  have hfollows := index_follows env.mem count opened
  refine func_rule hfollows.stable.hostFunc fun hh => ?_
  have henter : Triple (indexMonitor env.mem count) (InOpened opened) (fwEnterFunc env func)
      (fun _ g s => ∃ depth, InOpened ((func, depth) :: opened) g s ∧
        (g.2 → func.IndicesInRange env.mem count)) fun _ _ => True :=
    enterFunc_frame (J := fun g _ => g.2 → g.1.opened = opened)
      (K := fun g _ => ∃ depth, (g.2 → g.1.opened = (func, depth) :: opened) ∧
        (g.2 → func.IndicesInRange env.mem count)) indexMonitor_quiet
      fun g frame depth hg => ⟨trivial, depth,
        fun h => congrArg (List.cons (func, depth)) (hg h.1), fun h => h.2⟩
  refine Triple.bind henter fun saveLocals => Triple.of_exists fun depth => ?_
  by_cases hrange : func.IndicesInRange env.mem count
  · obtain ⟨status, hwalk⟩ := hval hh
    have hstart := (walked_of_validate hwalk).start
    refine Triple.bind ((hloop ⟨status, hwalk⟩ hrange depth).pre fun g s hs =>
      ⟨hs.1, fun _ => ⟨le_refl _, .inr hstart⟩⟩) fun exit => ?_
    refine (leaveFunc_frame (J := fun g _ => g.2 → g.1.opened = (func, depth) :: opened)
      (K := fun g _ => g.2 → g.1.opened = opened) indexMonitor_quiet
      (fun g _ hg => ⟨trivial, fun h => congrArg List.tail (hg h.1)⟩) saveLocals exit).pre ?_
    exact fun _ _ h => h.inv
  · -- the step that entered it did not keep the indices
    exact hfollows.after_dead (fun g s hs hg => hrange (hs.2 hg)) fun _ _ _ h =>
      hfollows.of_dead h

/-- All functions and loops, by induction on the number of steps. -/
theorem interp_indices (henv : ∀ f ∈ env.funcs, f.hostAddr = none → f.Validated env.mem) (n : ℕ) :
    (∀ f, (f.hostAddr = none → f.Validated env.mem) → ∀ opened,
      KeepsOpened env.mem count opened ((interp env n).func f)) ∧
      ∀ f, f.Validated env.mem → f.IndicesInRange env.mem count → ∀ depth opened body,
        LoopFollows env.mem count (interp env n) f ((f, depth) :: opened) body := by
  refine interp_induction (p := fun r => (∀ f, (f.hostAddr = none → f.Validated env.mem) →
      ∀ opened, KeepsOpened env.mem count opened (r.func f)) ∧
    ∀ f, f.Validated env.mem → f.IndicesInRange env.mem count → ∀ depth opened body,
      LoopFollows env.mem count r f ((f, depth) :: opened) body) ?_ ?_ n
  · exact ⟨fun _ _ _ => Triple.halt fun _ _ _ => trivial,
      fun _ _ _ _ _ _ => Triple.halt fun _ _ _ => trivial⟩
  · rintro r ⟨hfunc, hloop⟩
    refine ⟨fun f hval opened => func_indices hval fun hval hrange depth =>
      hloop f hval hrange depth opened f.body, fun f hval hrange depth opened body => ?_⟩
    obtain ⟨status, hwalk⟩ := hval
    refine (index_follows env.mem count ((f, depth) :: opened)).dispatch (walked_of_validate hwalk)
      (fun pos hpos ctx g s hg => ⟨fun h => ?_, fun h => hg h.1⟩) (fun _ => return_indices)
      (fun g hg => hfunc g (henv g hg) _) (hloop f ⟨status, hwalk⟩ hrange depth opened) body
    exact ⟨f, depth, opened, hg h, fun last hlast => (hrange pos hpos).window hlast⟩

/-- A function that is run from outside, in an environment of validated functions. -/
theorem moduleRunFunc_indices (env : Env)
    (henv : ∀ f ∈ func :: env.funcs, f.hostAddr = none → f.Validated env.mem) (n : ℕ)
    (args : List (List UInt8)) (rets : Bool) :
    KeepsOpened env.mem count opened (fwModuleRunFunc env n func args rets) := by
  obtain ⟨hfunc, henv⟩ := List.forall_mem_cons.mp henv
  exact (index_follows env.mem count opened).stable.moduleRunFunc
    ((interp_indices henv n).1 func hfunc opened) args rets

end

/-! ## Loaded and compiled modules

The functions that are run are those of a compiled module, so their block tables are as validation
has left them. Imported functions have no bytes. -/

/-- What `fw_calloc` returns for the function of an import. -/
def FwModuleFunc.zero : FwModuleFunc := ⟨0, ⟨0, 0, []⟩, ⟨0, 0⟩, none, .init⟩

/-- A module as the loader leaves it: no block was met yet, and the functions of the imports are
zero. -/
structure FwModule.Fresh (module : FwModule) : Prop where
  /-- the defined functions -/
  funcs : ∀ func ∈ module.funcs, func.blks = .init
  /-- the imported functions -/
  imports : ∀ imp ∈ module.imports, imp.f = .zero

/-- A loaded function as `compile` finds it, when its type was read from the array. -/
def LoadedFunc.toFunc (func : LoadedFunc) : Option FwModuleFunc :=
  func.functype.map fun functype => ⟨func.localCnt, functype, func.body, none, .init⟩

/-- A loaded import as `compile` finds it, when it is a function. -/
def LoadedImport.toImport (imp : LoadedImport) : Option FwModuleImport :=
  match imp.desc with
  | .func typeidx => some ⟨imp.mname, imp.nsname, .zero, typeidx⟩
  | .table _ _ _ | .memory _ _ | .global _ _ => none

/-- The part of a loaded module that `compile` and `run` read. -/
structure LoadedModule.Gives (loaded : LoadedModule) (module : FwModule) : Prop where
  /-- the types -/
  type : module.type = loaded.type.getD []
  /-- the imported functions -/
  imports : module.imports = (loaded.imports .func).filterMap (·.toImport)
  /-- the defined functions -/
  funcs : module.funcs.map some = loaded.funcs.map (·.toFunc)
  /-- the exports -/
  exports : module.exports = loaded.exports.map fun exp => ⟨exp.name, exp.kind, exp.idx, none⟩
  /-- it is not compiled -/
  inst : module.inst = none

theorem LoadedModule.Gives.fresh {loaded : LoadedModule} {module : FwModule}
    (h : loaded.Gives module) : module.Fresh := by
  refine ⟨fun func hfunc => ?_, fun imp himp => ?_⟩
  · have hmem : some func ∈ loaded.funcs.map (·.toFunc) := h.funcs ▸ List.mem_map_of_mem hfunc
    obtain ⟨f, -, hf⟩ := List.mem_map.mp hmem
    obtain ⟨functype, -, rfl⟩ := Option.map_eq_some_iff.mp hf
    rfl
  · rw [h.imports] at himp
    obtain ⟨loadedImp, -, himp⟩ := List.mem_filterMap.mp himp
    rw [LoadedImport.toImport] at himp
    split at himp
    · obtain rfl := Option.some.inj himp
      rfl
    · cases himp
    · cases himp
    · cases himp

section Compile

variable {mem : Mem} {module module' : FwModule} {imports : FwImportFuncWrap}

/-- Functions that were validated from their initial block tables. -/
theorem validated_of_validateFuncs :
    ∀ {funcs funcs' : List FwModuleFunc}, (∀ func ∈ funcs, func.blks = .init) →
      fwValidateFuncs mem funcs = .ok (.ok, funcs') → ∀ func ∈ funcs', func.Validated mem
  | [], _, _, h => by
    obtain ⟨-, rfl⟩ := Prod.mk.inj (Except.ok.inj h)
    exact fun func hfunc => by cases hfunc
  | func :: funcs, funcs', hinit, h => by
    obtain ⟨hblks, hinit⟩ := List.forall_mem_cons.mp hinit
    obtain ⟨_, _, _, hw, hv, rfl⟩ := validateFuncs_cons.mp h
    rw [hblks] at hw
    exact List.forall_mem_cons.mpr
      ⟨⟨.ok, validateInst_of_walk hw⟩, validated_of_validateFuncs hinit hv⟩

/-- The walk over no bytes at all leaves no blocks, and that is what an imported function has. -/
theorem validated_zero (host : Option ℕ) (functype : FwModuleType) :
    FwModuleFunc.Validated mem { FwModuleFunc.zero with hostAddr := host, functype := functype } :=
  ⟨.ok, rfl⟩

/-- The functions of a compiled module are validated. -/
theorem validated_of_compile (hfresh : module.Fresh)
    (h : fwModuleCompile mem module imports = .ok (.ok, module')) :
    ∀ func ∈ module'.inst.getD [], func.Validated mem := by
  obtain ⟨ifuncs, hv, hi, -, hinst⟩ := loops_of_compile h
  obtain ⟨-, hall⟩ := forall₂_instanceImports hi
  rw [hinst, Option.getD_some]
  refine List.forall_mem_append.mpr
    ⟨fun func hfunc => ?_, validated_of_validateFuncs hfresh.funcs hv⟩
  obtain ⟨i, hi, rfl⟩ := List.mem_iff_get.mp hfunc
  have hlt : i < module.imports.length := hall.length_eq.symm ▸ i.isLt
  obtain ⟨host, functype, -, -, hf⟩ := hall.get hlt i.isLt
  rw [hf, hfresh.imports _ (List.get_mem _ _)]
  exact validated_zero host.ptr functype

/-- An exported function is one of the functions of the module. -/
theorem export_mem_inst {funcname : List UInt8} {func : FwModuleFunc}
    (h : fwModuleCompile mem module imports = .ok (.ok, module'))
    (hfunc : fwModuleGetExportFunc module' funcname = some (some func)) :
    func ∈ module'.inst.getD [] := by
  obtain ⟨funcs, hcompiled⟩ := compiled_of_compile h
  rw [fwModuleGetExportFunc, hcompiled.find_export, Option.map_map, Option.map_eq_some_iff] at hfunc
  obtain ⟨exp, -, hexp⟩ := hfunc
  rw [hcompiled.inst, Option.getD_some]
  exact List.mem_of_getElem? hexp

end Compile

/-- In a run of a compiled module every index is in range as long as all steps before kept the
indices (`hkeeps`): the functions entered have them in range in their bytes, and no `return` went by
a frame that ends before its function does. The module is compiled from one that the loader leaves
(`hfresh`, `hcompile`), with any registry, and run under any name with any arguments; the
instruction is any that the run fetches (`hfetch`). -/
theorem indices_in_range {env : Env} {n : ℕ} {module module' : FwModule}
    {imports : FwImportFuncWrap} {funcname : List UInt8} {args : List (List UInt8)} {rets : Bool}
    {stack : ℕ → Slot} {k pos : ℕ} {ctx : Ctx} (hfresh : module.Fresh)
    (hcompile : fwModuleCompile env.mem module imports = .ok (.ok, module'))
    (hfetch : (fwModuleRun env n module' funcname args rets (fwModuleContextNew stack)).log[k]? =
      some (.fetch pos ctx))
    (hkeeps : ∀ e ∈ (fwModuleRun env n module' funcname args rets
      (fwModuleContextNew stack)).log.take k,
        e.KeepsIndices env.mem (module.imports.length + module.funcs.length)) :
    (callsOf ((fwModuleRun env n module' funcname args rets
      (fwModuleContextNew stack)).log.take k)).InRange env.mem
        (module.imports.length + module.funcs.length) pos := by
  have hval := validated_of_compile hfresh hcompile
  have hrun : KeepsOpened env.mem (module.imports.length + module.funcs.length) []
      (fwModuleRun env n module' funcname args rets) := by
    rw [fwModuleRun]
    rcases hf : fwModuleGetExportFunc module' funcname with _ | _ | func
    · exact .pure _
    · exact Triple.halt fun _ _ _ => trivial
    · have henv : ∀ f ∈ func :: module'.inst.getD [], f.hostAddr = none → f.Validated env.mem :=
        List.forall_mem_cons.mpr
          ⟨fun _ => hval func (export_mem_inst hcompile hf), fun f hf _ => hval f hf⟩
      exact moduleRunFunc_indices { env with funcs := module'.inst.getD [] } henv n args rets
  have hok := (hrun (⟨[], none⟩, True) (fwModuleContextNew stack) fun _ => rfl).1.at_index hfetch
  rw [indexMonitor_after] at hok
  exact hok ⟨trivial, hkeeps⟩

/-! ### Two runs

The same function, once with an index that is in range and once with one that is not. -/

/-- A module that exports its one function, with one local and without parameters. -/
def oneExport (body : FwStr) : FwModule :=
  ⟨[], [], [⟨1, ⟨0, 0, []⟩, body, none, .init⟩], [⟨[0x66], 0, 0, none⟩], none⟩

/-- A function that gets its local, and has just that one. -/
def getLocal : Env := zeroEnv (memOf [0x20, 0x00, 0x0b]) []

/-- A function that gets a local it does not have. -/
def getNoLocal : Env := zeroEnv (memOf [0x20, 0x05, 0x0b]) []

/-- The index is in range, and the run comes to it. The program has a single function with one
declared local, which reads that local. -/
theorem getLocal_in_range :
    ∃ module' ctx, fwModuleCompile getLocal.mem (oneExport ⟨0, 3⟩) (fun _ => []) =
        .ok (.ok, module') ∧
      (fwModuleRun getLocal 3 module' [0x66] [] false
        (fwModuleContextNew fun _ => .plain 0 0)).log[2]? = some (.fetch 0 ctx) ∧
      (callsOf ((fwModuleRun getLocal 3 module' [0x66] [] false
        (fwModuleContextNew fun _ => .plain 0 0)).log.take 2)).InRange getLocal.mem 1 0 := by
  obtain ⟨module', ctx, hcompile, hfetch, hlog⟩ : ∃ module' ctx,
      fwModuleCompile getLocal.mem (oneExport ⟨0, 3⟩) (fun _ => []) = .ok (.ok, module') ∧
      (fwModuleRun getLocal 3 module' [0x66] [] false
        (fwModuleContextNew fun _ => .plain 0 0)).log[2]? = some (.fetch 0 ctx) ∧
      (fwModuleRun getLocal 3 module' [0x66] [] false
        (fwModuleContextNew fun _ => .plain 0 0)).log.take 2 =
          [.alloc 0, .enter ⟨1, ⟨0, 0, []⟩, ⟨0, 3⟩, none, .init⟩ 0] := ⟨_, _, rfl, rfl, rfl⟩
  have hfresh : (oneExport ⟨0, 3⟩).Fresh := by
    refine ⟨fun func hfunc => ?_, fun imp himp => by cases himp⟩
    obtain rfl := List.mem_singleton.mp hfunc
    rfl
  refine ⟨module', ctx, hcompile, hfetch, indices_in_range hfresh hcompile hfetch ?_⟩
  rw [hlog]
  refine List.forall_mem_cons.mpr ⟨trivial, List.forall_mem_singleton.mpr ?_⟩
  change FwModuleFunc.IndicesInRange getLocal.mem 1 _
  decide

/-- A function whose index of a local is out of range compiles, and is run. -/
theorem index_out_of_range :
    ∃ module' ctx, fwModuleCompile getNoLocal.mem (oneExport ⟨0, 3⟩) (fun _ => []) =
        .ok (.ok, module') ∧
      (fwModuleRun getNoLocal 3 module' [0x66] [] false
        (fwModuleContextNew fun _ => .plain 0 0)).log[2]? = some (.fetch 0 ctx) ∧
      ¬ (callsOf ((fwModuleRun getNoLocal 3 module' [0x66] [] false
        (fwModuleContextNew fun _ => .plain 0 0)).log.take 2)).InRange getNoLocal.mem 1 0 := by
  refine ⟨_, _, rfl, rfl, ?_⟩
  rintro ⟨func, depth, rest, hopened, hrange⟩
  obtain ⟨hfunc, -⟩ := List.cons.inj hopened
  obtain ⟨rfl, -⟩ := Prod.mk.inj hfunc
  exact absurd (hrange 3 (le_refl _)) (by decide)

end FastWasm
