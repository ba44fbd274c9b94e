import FastWasm.Registry
import FastWasm.Validate
import Mathlib.Data.List.Induction

/-!
# The function index space (`jit/fw_compile.c`)

`instance->funcs` holds the imported functions and behind them the defined ones. Each import gets
the host function that was registered last under its names, as far as `fw_str_cmp` tells names
apart. The bodies are validated before the imports are looked at, so a body that the validation does
not return from hides an import that does not resolve.

The registry is a sequence of calls here, and the last call with matching names is the one that is
found, since every call inserts at the head of its list. Two names match when they compare equal,
and that is not the same as being equal: a name of a module may have zero bytes in it, and no C
string has. So an index space is right when the names of the imports tell the calls apart
(`Distinguished`).

At the end of the module, what a compilation that fails leaves behind: `module->instance` is set
before anything can fail and never taken back.
-/

namespace FastWasm

/-! ## The latest call

Insertion at the head and search from the head: what is found is what was inserted last. -/

/-- The last element of a list with a property: it has it, and none behind it does. -/
def LatestBy {α : Type*} (p : α → Prop) (l : List α) (a : α) : Prop :=
  ∃ pre post, l = pre ++ a :: post ∧ p a ∧ ∀ b ∈ post, ¬ p b

theorem find?_reverse_eq_some {α : Type*} {p : α → Prop} [DecidablePred p] {l : List α} {a : α} :
    l.reverse.find? (fun b => p b) = some a ↔ LatestBy p l a := by
  rw [List.find?_eq_some_iff_append]
  simp only [decide_eq_true_iff, Bool.not_eq_true', decide_eq_false_iff_not]
  refine ⟨?_, ?_⟩
  · rintro ⟨ha, post, pre, h, hpost⟩
    refine ⟨pre.reverse, post.reverse, ?_, ha, fun b hb => hpost b (List.mem_reverse.mp hb)⟩
    rw [← List.reverse_reverse l, h]
    simp
  · rintro ⟨pre, post, rfl, ha, hpost⟩
    exact ⟨ha, post.reverse, pre.reverse, by simp, fun b hb => hpost b (List.mem_reverse.mp hb)⟩

theorem exists_latestBy {α : Type*} {p : α → Prop} {l : List α} :
    (∃ a, LatestBy p l a) ↔ ∃ a ∈ l, p a := by
  classical
  refine ⟨?_, ?_⟩
  · rintro ⟨a, pre, post, rfl, ha, -⟩
    exact ⟨a, List.mem_append_right _ List.mem_cons_self, ha⟩
  · intro h
    simp only [← find?_reverse_eq_some, ← Option.isSome_iff_exists, List.find?_isSome,
      List.mem_reverse, decide_eq_true_iff]
    exact h

/-- The names of a call compare equal with these, and have the same hash. The names of the call are
C strings. -/
def AddFunc.Matches (c : AddFunc) (mname nsname : List UInt8) : Prop :=
  fwImportHash (cString c.mname) (cString c.nsname) = fwImportHash mname nsname ∧
    fwStrCmpEq mname (cString c.mname) ∧ fwStrCmpEq nsname (cString c.nsname)

instance (mname nsname : List UInt8) : DecidablePred fun c : AddFunc => c.Matches mname nsname :=
  fun _ => inferInstanceAs (Decidable (_ ∧ _ ∧ _))

theorem bucket_fwImportFuncs (calls : List AddFunc) (i : ℕ) :
    fwImportFuncs calls i = (calls.reverse.filter fun c =>
      fwImportHash (cString c.mname) (cString c.nsname) = i).map
        fun c => c.entry.toFwImportFunc := by
  induction calls using List.reverseRecOn with
  | nil => rfl
  | append_singleton calls c ih =>
    rw [fwImportFuncs, List.foldl_append, List.foldl_cons, List.foldl_nil, ← fwImportFuncs,
      List.reverse_append, List.reverse_singleton, List.singleton_append, List.filter_cons,
      FwImportFuncWrap.insert]
    by_cases hi : fwImportHash (cString c.mname) (cString c.nsname) = i
    · subst hi
      rw [if_pos (by simp), List.map_cons, ← ih]
      exact Function.update_self ..
    · rw [if_neg (by simpa using hi), ← ih]
      exact Function.update_of_ne (Ne.symm hi) _ _

/-- What is found is the entry of the latest call whose names match. -/
theorem find_fwImportFuncs (calls : List AddFunc) (mname nsname : List UInt8) :
    fwImportFuncWrapFind (fwImportFuncs calls) mname nsname =
      (calls.reverse.find? fun c => c.Matches mname nsname).map
        fun c => c.entry.toFwImportFunc := by
  rw [fwImportFuncWrapFind, bucket_fwImportFuncs, List.find?_map, List.find?_filter]
  refine congrArg (Option.map _) (List.find?_congr fun c _ => ?_)
  apply Bool.eq_iff_iff.mpr
  simp only [decide_eq_true_iff, Function.comp_apply, Bool.and_eq_true]
  rfl

theorem find_eq_some {calls : List AddFunc} {mname nsname : List UInt8} {host : FwImportFunc} :
    fwImportFuncWrapFind (fwImportFuncs calls) mname nsname = some host ↔
      ∃ c, LatestBy (·.Matches mname nsname) calls c ∧ host = c.entry.toFwImportFunc := by
  rw [find_fwImportFuncs, Option.map_eq_some_iff]
  exact exists_congr fun c => and_congr find?_reverse_eq_some eq_comm

/-! ## What compilation leaves

Each loop of `fw_module_compile` is described by what its list has become. All of it is needed at
once to say which function is at which index. -/

section Compile

variable {mem : Mem} {module module' : FwModule} {imports : FwImportFuncWrap}

/-- Validation sets the blocks of the functions, and nothing else of them. -/
theorem forall₂_validateFuncs :
    ∀ {funcs funcs' : List FwModuleFunc} {status : Status},
      fwValidateFuncs mem funcs = .ok (status, funcs') →
        List.Forall₂ (fun func func' => ∃ blks, func' = { func with blks := blks }) funcs funcs'
  | [], _, _, h => by
    obtain ⟨-, rfl⟩ := Prod.mk.inj (Except.ok.inj h)
    exact .nil
  | func :: funcs, funcs', status, h => by
    obtain ⟨_, blks, _, -, hv, rfl⟩ := validateFuncs_cons.mp h
    exact .cons ⟨blks, rfl⟩ (forall₂_validateFuncs hv)

/-- An import as it is resolved: the pointer of the host function that was found, and the type at
the index. -/
def FwModuleImport.ResolvesTo (type : List FwModuleType) (imports : FwImportFuncWrap)
    (imp : FwModuleImport) (f : FwModuleFunc) : Prop :=
  ∃ host functype, fwImportFuncWrapFind imports imp.mname imp.nsname = some host ∧
    type[imp.typeidx.toNat]? = some functype ∧
    f = { imp.f with hostAddr := host.ptr, functype := functype }

/-- The imported functions come in the order of the imports. -/
theorem forall₂_instanceImports {type : List FwModuleType} :
    ∀ {imps imps' : List FwModuleImport} {ifuncs : List FwModuleFunc},
      fwInstanceImports type imports imps = (.ok, imps', ifuncs) → ifuncs = imps'.map (·.f) ∧
        List.Forall₂ (FwModuleImport.ResolvesTo type imports) imps ifuncs
  | [], _, _, h => by
    obtain ⟨-, rfl, rfl⟩ := h
    exact ⟨rfl, .nil⟩
  | imp :: imps, imps', ifuncs, h => by
    rw [fwInstanceImports] at h
    cases hf : fwImportFuncWrapFind imports imp.mname imp.nsname with
    | none => simp [hf] at h
    | some host =>
      cases ht : type[imp.typeidx.toNat]? with
      | none => simp [hf, ht] at h
      | some functype =>
        rcases hr : fwInstanceImports type imports imps with ⟨status, rest, funcs⟩
        simp only [hf, ht, hr, Prod.mk.injEq] at h
        obtain ⟨rfl, rfl, rfl⟩ := h
        obtain ⟨hmap, hall⟩ := forall₂_instanceImports hr
        exact ⟨by rw [List.map_cons, ← hmap], .cons ⟨host, functype, hf, ht, rfl⟩ hall⟩

/-- The exports get the functions at their indices, of whatever kind they are. -/
theorem compileExports_eq_ok {funcs : List FwModuleFunc} {bound : ℕ} :
    ∀ {exports exports' : List FwModuleExport},
      fwCompileExports bound funcs exports = (.ok, exports') →
        exports' = exports.map fun exp => { exp with func := funcs[exp.idx.toNat]? }
  | [], _, h => by
    obtain ⟨-, rfl⟩ := h
    rfl
  | exp :: exports, exports', h => by
    rw [fwCompileExports] at h
    by_cases hlt : exp.idx.toNat ≥ bound
    · simp [hlt] at h
    · rcases hr : fwCompileExports bound funcs exports with ⟨status, rest⟩
      simp only [if_neg hlt, hr, Prod.mk.injEq] at h
      obtain ⟨rfl, rfl⟩ := h
      rw [List.map_cons, ← compileExports_eq_ok hr]

/-- What a module is after it was compiled: its functions validated, its imports resolved, the
entries of `instance->funcs` and of the exports filled. -/
structure Compiled (imports : FwImportFuncWrap) (module module' : FwModule)
    (funcs : List FwModuleFunc) : Prop where
  /-- the instance -/
  inst : module'.inst = some funcs
  /-- the imported functions come first, and the defined ones behind them -/
  layout : funcs = module'.imports.map (·.f) ++ module'.funcs
  /-- the imported functions are resolved -/
  imported : List.Forall₂ (FwModuleImport.ResolvesTo module.type imports) module.imports
    (module'.imports.map (·.f))
  /-- the defined functions are the ones of the module -/
  defined : List.Forall₂ (fun func func' => ∃ blks, func' = { func with blks := blks })
    module.funcs module'.funcs
  /-- the exports are the ones of the module -/
  exports : module'.exports = module.exports.map fun exp =>
    { exp with func := funcs[exp.idx.toNat]? }

/-- The loops of `fw_module_compile` when it returns `FW_OK`. -/
theorem loops_of_compile (h : fwModuleCompile mem module imports = .ok (.ok, module')) :
    ∃ ifuncs, fwValidateFuncs mem module.funcs = .ok (.ok, module'.funcs) ∧
      fwInstanceImports module.type imports module.imports = (.ok, module'.imports, ifuncs) ∧
      (∃ bound, fwCompileExports bound (ifuncs ++ module'.funcs) module.exports =
        (.ok, module'.exports)) ∧
      module'.inst = some (ifuncs ++ module'.funcs) := by
  obtain ⟨hinst, -⟩ := compile_ok_iff.mp ⟨module', h⟩
  rw [fwModuleCompile, hinst, Option.isSome_none, if_neg Bool.false_ne_true] at h
  rcases hv : fwValidateFuncs mem module.funcs with e | ⟨status, funcs⟩
  · simp [hv] at h
  · obtain ⟨rfl, -⟩ := validateFuncs_eq_ok hv
    rcases hi : fwInstanceImports module.type imports module.imports with ⟨_ | _, imps, ifuncs⟩
    · simp [hv, hi] at h
    · rcases he : fwCompileExports ((funcs.length + imps.length) % 2 ^ 32) (ifuncs ++ funcs)
        module.exports with ⟨status, exports⟩
      simp only [hv, hi, he, Except.ok.injEq, Prod.mk.injEq] at h
      obtain ⟨rfl, rfl⟩ := h
      exact ⟨ifuncs, rfl, rfl, ⟨_, he⟩, rfl⟩

/-- What `fw_module_compile` leaves when it returns `FW_OK`. -/
theorem compiled_of_compile (h : fwModuleCompile mem module imports = .ok (.ok, module')) :
    ∃ funcs, Compiled imports module module' funcs := by
  obtain ⟨ifuncs, hv, hi, ⟨bound, he⟩, hinst⟩ := loops_of_compile h
  obtain ⟨rfl, hall⟩ := forall₂_instanceImports hi
  exact ⟨_, hinst, rfl, hall, forall₂_validateFuncs hv, compileExports_eq_ok he⟩

/-- `fw_module_compile` returns when every walk does, or when it refuses at once because the module
is compiled. -/
theorem compile_returns_iff :
    (∃ r, fwModuleCompile mem module imports = .ok r) ↔
      module.inst ≠ none ∨ ∀ func ∈ module.funcs, func.Returns mem := by
  rw [← validateFuncs_ok_iff, fwModuleCompile]
  cases hi : module.inst with
  | some funcs => exact iff_of_true ⟨_, rfl⟩ (.inl (Option.some_ne_none funcs))
  | none =>
    rw [Option.isSome_none, if_neg Bool.false_ne_true]
    rcases hv : fwValidateFuncs mem module.funcs with e | ⟨status, funcs⟩
    · exact iff_of_false (by rintro ⟨_, h⟩; cases h) (by simp)
    · obtain ⟨rfl, -⟩ := validateFuncs_eq_ok hv
      refine iff_of_true ?_ (.inr ⟨funcs, rfl⟩)
      rcases fwInstanceImports module.type imports module.imports with ⟨_ | _, imps, ifuncs⟩
      · exact ⟨_, rfl⟩
      · exact ⟨_, rfl⟩

/-- When `fw_module_compile` returns `FW_ERR`: every walk returns, and an import or an export is in
its way, or the module is compiled already. -/
theorem compile_err_iff :
    (∃ module', fwModuleCompile mem module imports = .ok (.err, module')) ↔
      (module.inst ≠ none ∨ ∀ func ∈ module.funcs, func.Returns mem) ∧
        ¬ ∃ module', fwModuleCompile mem module imports = .ok (.ok, module') := by
  rw [← compile_returns_iff]
  refine ⟨?_, ?_⟩
  · rintro ⟨module', h⟩
    refine ⟨⟨_, h⟩, ?_⟩
    rintro ⟨module'', h'⟩
    cases h.symm.trans h'
  · rintro ⟨⟨⟨_ | _, module'⟩, h⟩, hok⟩
    · exact ⟨module', h⟩
    · exact absurd ⟨module', h⟩ hok

end Compile

/-! ## The index space

Two things have to come together: that the imports have the functions that were registered for their
names, and that nothing is taken that should have been refused. -/

/-- The index space of a compiled module: the imported functions, each with the host function that
was registered last under its names and with its type, behind them the defined functions, and the
functions that are exported, each at its index. -/
structure IndexSpace (calls : List AddFunc) (module module' : FwModule)
    (funcs : List FwModuleFunc) : Prop where
  /-- the imported functions -/
  imported : ∀ (i : ℕ) (imp : FwModuleImport), module.imports[i]? = some imp → ∃ c functype,
    LatestBy (·.Names imp.mname imp.nsname) calls c ∧
      module.type[imp.typeidx.toNat]? = some functype ∧
      funcs[i]? = some { imp.f with hostAddr := c.faddr, functype := functype }
  /-- the defined functions -/
  defined : ∀ (j : ℕ) (func : FwModuleFunc), module.funcs[j]? = some func → ∃ blks,
    module'.funcs[j]? = some { func with blks := blks } ∧
      funcs[module.imports.length + j]? = some { func with blks := blks }
  /-- the exported functions -/
  exported : ∀ (k : ℕ) (exp : FwModuleExport), module.exports[k]? = some exp → exp.kind = 0 →
    exp.idx.toNat < module.imports.length + module.funcs.length ∧ ∃ func,
      funcs[exp.idx.toNat]? = some func ∧ module'.exports[k]? = some { exp with func := some func }

/-- An import that is registered under its very names, and whose type is one of the module. -/
def FwModuleImport.Registered (type : List FwModuleType) (calls : List AddFunc)
    (imp : FwModuleImport) : Prop :=
  (∃ c ∈ calls, c.Names imp.mname imp.nsname) ∧ imp.typeidx.toNat < type.length

/-- Compilation builds the index space, refuses imports that are not registered or have no type, and
writes over nothing. Only a walk writes over bytes of the file, and names may be among them. -/
structure CompileIndexes (mem : Mem) (calls : List AddFunc) (module : FwModule) : Prop where
  /-- the index space -/
  built : ∀ module', fwModuleCompile mem module (fwImportFuncs calls) = .ok (.ok, module') →
    ∃ funcs, module'.inst = some funcs ∧ IndexSpace calls module module' funcs
  /-- imports that are refused -/
  refused : (∃ imp ∈ module.imports, ¬ imp.Registered module.type calls) →
    ∃ module', fwModuleCompile mem module (fwImportFuncs calls) = .ok (.err, module')
  /-- the file stays as it is -/
  intact : fwModuleCompile mem module (fwImportFuncs calls) ≠ .error (.fault .overBytes)

section Compile

variable {mem : Mem} {calls : List AddFunc} {module module' : FwModule}

theorem Compiled.length {funcs : List FwModuleFunc}
    (h : Compiled (fwImportFuncs calls) module module' funcs) :
    funcs.length = module.imports.length + module.funcs.length := by
  rw [h.layout, List.length_append, h.imported.length_eq, h.defined.length_eq]

/-- The calls that matter for an import are told apart from the others by its names: the latest call
that compares equal with them registers the same function as the latest one that has these very
names. -/
def FwModuleImport.Distinguished (calls : List AddFunc) (imp : FwModuleImport) : Prop :=
  ∃ c c', LatestBy (·.Matches imp.mname imp.nsname) calls c ∧
    LatestBy (·.Names imp.mname imp.nsname) calls c' ∧ c'.faddr = c.faddr

/-- The function at the index of an import has the host pointer of the latest call that matches
its names. -/
theorem Compiled.import_at {funcs : List FwModuleFunc} {i : ℕ} {imp : FwModuleImport}
    (h : Compiled (fwImportFuncs calls) module module' funcs)
    (himp : module.imports[i]? = some imp) :
    ∃ c functype, LatestBy (·.Matches imp.mname imp.nsname) calls c ∧
      module.type[imp.typeidx.toNat]? = some functype ∧
      (module'.imports.map (·.f) ++ module'.funcs)[i]? =
        some { imp.f with hostAddr := c.faddr, functype := functype } := by
  obtain ⟨hi, rfl⟩ := List.getElem?_eq_some_iff.mp himp
  have hi' : i < (module'.imports.map (·.f)).length := h.imported.length_eq ▸ hi
  obtain ⟨host, functype, hfind, htype, hf⟩ := h.imported.get hi hi'
  obtain ⟨c, hc, rfl⟩ := find_eq_some.mp hfind
  refine ⟨c, functype, hc, htype, ?_⟩
  rw [List.getElem?_append_left hi', List.getElem?_eq_getElem hi']
  exact congrArg some hf

/-- The compiled module has its index space if and only if every import is distinguished. The order
of imports and functions and the exports are right anyway; an import can get the wrong host
function, as the lookup goes by the latest name that matches. -/
theorem indexSpace_iff {funcs : List FwModuleFunc}
    (h : Compiled (fwImportFuncs calls) module module' funcs)
    (hexports : ∀ exp ∈ module.exports, exp.idx.toNat < module.funcBound) :
    IndexSpace calls module module' funcs ↔ ∀ imp ∈ module.imports, imp.Distinguished calls := by
  have hlen := h.length
  obtain rfl := h.layout
  refine ⟨?_, ?_⟩
  · intro hspace imp himp
    obtain ⟨i, hi⟩ := List.getElem?_of_mem himp
    obtain ⟨c, functype, hc, htype, hf⟩ := h.import_at hi
    obtain ⟨c', functype', hc', -, hf'⟩ := hspace.imported i imp hi
    have heq := Option.some.inj (hf'.symm.trans hf)
    exact ⟨c, c', hc, hc', congrArg FwModuleFunc.hostAddr heq⟩
  · intro hdist
    refine ⟨fun i imp hi => ?_, fun j func hj => ?_, fun k exp hk hkind => ?_⟩
    · obtain ⟨c, functype, hc, htype, hf⟩ := h.import_at hi
      obtain ⟨c₁, c', hc₁, hc', haddr⟩ := hdist imp (List.mem_of_getElem? hi)
      obtain rfl := Option.some.inj
        ((find?_reverse_eq_some.mpr hc₁).symm.trans (find?_reverse_eq_some.mpr hc))
      exact ⟨c', functype, hc', htype, by rw [hf, haddr]⟩
    · obtain ⟨hj', rfl⟩ := List.getElem?_eq_some_iff.mp hj
      have hj'' : j < module'.funcs.length := h.defined.length_eq ▸ hj'
      obtain ⟨blks, hf⟩ := h.defined.get hj' hj''
      have hget' : module'.funcs[j]? = some { module.funcs[j] with blks := blks } := by
        rw [List.getElem?_eq_getElem hj'']
        exact congrArg some hf
      refine ⟨blks, hget', ?_⟩
      rw [h.imported.length_eq, List.getElem?_append_right (Nat.le_add_right _ _),
        Nat.add_sub_cancel_left, hget']
    · have hlt : exp.idx.toNat < module.imports.length + module.funcs.length := by
        have := hexports exp (List.mem_of_getElem? hk)
        rw [FwModule.funcBound] at this
        have := Nat.mod_le (module.funcs.length + module.imports.length) (2 ^ 32)
        omega
      obtain ⟨func, hfunc⟩ : ∃ func,
          (module'.imports.map (·.f) ++ module'.funcs)[exp.idx.toNat]? = some func :=
        ⟨_, List.getElem?_eq_getElem (by omega)⟩
      refine ⟨hlt, func, hfunc, ?_⟩
      rw [h.exports, List.getElem?_map, hk, Option.map_some, hfunc]

theorem resolves_iff {imp : FwModuleImport} :
    imp.Resolves module.type (fwImportFuncs calls) ↔
      (∃ c ∈ calls, c.Matches imp.mname imp.nsname) ∧
        imp.typeidx.toNat < module.type.length := by
  rw [FwModuleImport.Resolves, ← exists_latestBy, Option.isSome_iff_exists]
  simp only [find_eq_some]
  refine and_congr_left fun _ => ?_
  refine ⟨?_, ?_⟩
  · rintro ⟨_, c, hc, -⟩
    exact ⟨c, hc⟩
  · rintro ⟨c, hc⟩
    exact ⟨_, c, hc, rfl⟩

/-- Compilation builds the index space and refuses what does not fit into it if and only if the
module is compiled already, or: every walk over a body returns, or all imports are registered and
have a type and the walk that does not return has not written over the file; and when the module
compiles, the names of the imports tell the calls of `add_func` apart. The bodies, the calls and the
module are any. -/
theorem compile_indexes_iff (mem : Mem) (calls : List AddFunc) (module : FwModule) :
    CompileIndexes mem calls module ↔ module.inst ≠ none ∨
      ((∀ func ∈ module.funcs, func.Returns mem) ∨
        firstHalt mem module.funcs ≠ some (.fault .overBytes) ∧
          ∀ imp ∈ module.imports, imp.Registered module.type calls) ∧
      ((∀ func ∈ module.funcs, func.Returns mem) →
        (∀ imp ∈ module.imports, (∃ c ∈ calls, c.Matches imp.mname imp.nsname) ∧
          imp.typeidx.toNat < module.type.length) →
        (∀ exp ∈ module.exports, exp.idx.toNat < module.funcBound) →
          ∀ imp ∈ module.imports, imp.Distinguished calls) := by
  have hok : (∃ module', fwModuleCompile mem module (fwImportFuncs calls) = .ok (.ok, module')) ↔
      module.inst = none ∧ (∀ func ∈ module.funcs, func.Returns mem) ∧
        (∀ imp ∈ module.imports, (∃ c ∈ calls, c.Matches imp.mname imp.nsname) ∧
          imp.typeidx.toNat < module.type.length) ∧
        ∀ exp ∈ module.exports, exp.idx.toNat < module.funcBound := by
    rw [compile_ok_iff]
    simp only [resolves_iff]
  refine ⟨?_, ?_⟩
  · rintro ⟨hbuilt, hrefused, hintact⟩
    by_cases hinst : module.inst = none
    · refine .inr ⟨?_, fun hreturns himports hexports imp himp => ?_⟩
      · by_contra hc
        obtain ⟨hreturns, himports⟩ := not_or.mp hc
        have hover : firstHalt mem module.funcs ≠ some (.fault .overBytes) := fun h =>
          hintact (compile_eq_error.mpr ⟨hinst, h⟩)
        have himports := (not_and.mp himports) hover
        push Not at himports
        obtain ⟨h, -⟩ := compile_err_iff.mp (hrefused himports)
        exact hreturns (h.resolve_left (not_not.mpr hinst))
      · obtain ⟨module', h⟩ := hok.mpr ⟨hinst, hreturns, himports, hexports⟩
        obtain ⟨funcs, hfuncs, hspace⟩ := hbuilt module' h
        obtain ⟨funcs', hc⟩ := compiled_of_compile h
        obtain rfl := Option.some.inj (hfuncs.symm.trans hc.inst)
        exact (indexSpace_iff hc hexports).mp hspace imp himp
    · exact .inl hinst
  · rintro (hinst | ⟨hreturns, hdist⟩)
    · refine ⟨fun module' h => absurd (hok.mp ⟨module', h⟩).1 hinst, fun _ => ?_, fun h => ?_⟩
      · exact compile_err_iff.mpr ⟨.inl hinst, fun h => hinst (hok.mp h).1⟩
      · exact hinst (compile_eq_error.mp h).1
    · refine ⟨fun module' h => ?_, ?_, fun h => ?_⟩
      · obtain ⟨-, hreturns, himports, hexports⟩ := hok.mp ⟨module', h⟩
        obtain ⟨funcs, hc⟩ := compiled_of_compile h
        exact ⟨funcs, hc.inst,
          (indexSpace_iff hc hexports).mpr (hdist hreturns himports hexports)⟩
      · rintro ⟨imp, himp, hbad⟩
        have hreturns := hreturns.resolve_right fun h => hbad (h.2 imp himp)
        refine compile_err_iff.mpr ⟨.inr hreturns, fun h => hbad ?_⟩
        obtain ⟨-, -, himports, hexports⟩ := hok.mp h
        obtain ⟨c, c', -, hc', -⟩ := hdist hreturns himports hexports imp himp
        exact ⟨exists_latestBy.mp ⟨c', hc'⟩, (himports imp himp).2⟩
      · obtain ⟨-, hover⟩ := compile_eq_error.mp h
        rcases hreturns with hreturns | ⟨hne, -⟩
        · rw [firstHalt_eq_none.mpr hreturns] at hover
          cases hover
        · exact hne hover

end Compile

/-- A module with an import, and a function whose body is `nop` and `end`. -/
def nopBody : FwModule :=
  ⟨[⟨0, 0, []⟩], [⟨[0x6d], [0x66], ⟨0, ⟨0, 0, []⟩, ⟨0, 0⟩, none, .init⟩, 0⟩],
    [⟨0, ⟨0, 0, []⟩, ⟨0, 2⟩, none, .init⟩], [], none⟩

/-- With no host function at all its compilation does not return `FW_ERR`. -/
theorem nopBody_not_refused : ¬ CompileIndexes (memOf [0x01, 0x0b]) [] nopBody := by
  intro h
  obtain ⟨module', h⟩ := h.refused ⟨_, List.mem_singleton_self _, by
    rintro ⟨⟨c, hc, -⟩, -⟩
    cases hc⟩
  have herr : fwModuleCompile (memOf [0x01, 0x0b]) nopBody (fwImportFuncs []) =
      .error (.fault .nullHandler) := rfl
  cases h.symm.trans herr

/-! ## A second compilation

`module->instance` is set at the beginning, and a module that has one is refused. Nothing takes it
away again. -/

section Recompile

variable {mem : Mem} {module module' : FwModule} {imports : FwImportFuncWrap}

/-- A compilation that leaves `module'` has not changed `module`, and can be done again with the
outcome that it would have had before. -/
structure CompileUndone (mem : Mem) (module module' : FwModule) : Prop where
  /-- the module is as it was -/
  left : module' = module
  /-- with any registry the same comes out as from the module not compiled before -/
  again : ∀ imports, fwModuleCompile mem module' imports = fwModuleCompile mem module imports

/-- Whatever the status, `module->instance` is set, and what was filled in before an error stays. -/
theorem inst_of_compile {status : Status}
    (h : fwModuleCompile mem module imports = .ok (status, module')) : module'.inst.isSome := by
  rw [fwModuleCompile] at h
  split at h
  · next hinst =>
    obtain ⟨-, rfl⟩ := Prod.mk.inj (Except.ok.inj h)
    exact hinst
  · rcases hv : fwValidateFuncs mem module.funcs with e | ⟨_ | _, funcs⟩ <;> rw [hv] at h
    · cases h
    · obtain ⟨-, rfl⟩ := Prod.mk.inj (Except.ok.inj h)
      rfl
    · rcases hi : fwInstanceImports module.type imports module.imports with ⟨_ | _, imps, ifuncs⟩
      all_goals
        simp only [hi] at h
        obtain ⟨-, rfl⟩ := Prod.mk.inj (Except.ok.inj h)
        rfl

/-- A module whose `module->instance` is set is refused, and left as it is. -/
theorem compile_of_inst (h : module.inst.isSome) :
    fwModuleCompile mem module imports = .ok (.err, module) := by
  rw [fwModuleCompile, if_pos h]

/-- A compilation of a module that was not compiled before (`hfresh`) and that fails (`hfail`) is
never undone: the module is not as it was, and every later one fails too, with whatever registry. -/
theorem failed_compile_not_undone (hfresh : module.inst = none)
    (hfail : fwModuleCompile mem module imports = .ok (.err, module')) :
    ¬ CompileUndone mem module module' ∧
      ∀ imports', fwModuleCompile mem module' imports' = .ok (.err, module') := by
  have hinst := inst_of_compile hfail
  refine ⟨fun h => ?_, fun imports' => compile_of_inst hinst⟩
  rw [h.left, hfresh] at hinst
  cases hinst

end Recompile

/-- A module that imports `m.f`, of the type `[] → []`. -/
def importing : FwModule :=
  ⟨[⟨0, 0, []⟩], [⟨[0x6d], [0x66], ⟨0, ⟨0, 0, []⟩, ⟨0, 0⟩, none, .init⟩, 0⟩], [], [], none⟩

/-- The call of `add_func` for `m.f`. -/
def addMF : AddFunc := ⟨[0x6d, 0], [0x66, 0], some 1, 0, 0⟩

/-- Without `m.f` the compilation of `importing` fails, and then it fails with `m.f` too, although
the module not compiled before compiles. -/
theorem importing_not_undone :
    ∃ module' fresh, fwModuleCompile (memOf []) importing (fwImportFuncs []) = .ok (.err, module') ∧
      fwModuleCompile (memOf []) importing (fwImportFuncs [addMF]) = .ok (.ok, fresh) ∧
      fwModuleCompile (memOf []) module' (fwImportFuncs [addMF]) = .ok (.err, module') ∧
      ¬ CompileUndone (memOf []) importing module' :=
  ⟨_, _, rfl, rfl, rfl, fun h => by cases congrArg FwModule.inst h.left⟩

/-- The module that imports `m.f`, compiled without it: it has changed, and never compiles again. -/
theorem importing_fails_again :
    ∃ module', ¬ CompileUndone (memOf []) importing module' ∧
      ∀ imports', fwModuleCompile (memOf []) module' imports' = .ok (.err, module') :=
  ⟨_, failed_compile_not_undone rfl
    (rfl : fwModuleCompile (memOf []) importing (fwImportFuncs []) = .ok (.err, _))⟩

end FastWasm
