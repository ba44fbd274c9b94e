import FastWasm.IndexSpace

/-!
# Exported names

The exports of a module share one array, whatever they are exports of. Compilation compares the
index of each of them with the number of functions, and gives each of them a function; the lookup of
a name does not look at the kind either.

So three things can go wrong, and `lookup_functions_iff` says when none does. An export of another
kind may have an index that is out of the range of the functions, and the module does not compile.
The first export whose name compares equal may be of another kind, and give a function that no
function export of the name has. And two exports may have one name. A function is compared by the
pointer that the lookup returns, the entry of `instance->funcs`, and not by what it points to, since
two functions may be alike.
-/

namespace FastWasm

/-! ## Functions as pointers

The model of compilation keeps functions and not pointers to them. Here they are told apart by where
they are, because the property is about which function is found. -/

/-- What an entry of `instance->funcs` points to: a function of the module, or the one in an import.
-/
inductive FuncAddr where
  /-- `module->imports[FW_IMPORT_KIND_FUNC][i].u.func.f` -/
  | imported (i : ℕ)
  /-- `&module->funcs[j]` -/
  | defined (j : ℕ)
  deriving DecidableEq, Repr

/-- The entries of `instance->funcs`: the imported functions and behind them the defined ones. -/
def FwModule.funcAddrs (module : FwModule) : List FuncAddr :=
  (List.range module.imports.length).map .imported ++
    (List.range module.funcs.length).map .defined

/-- The function that a pointer points to, as the module has it. -/
def FwModule.deref (module : FwModule) : FuncAddr → Option FwModuleFunc
  | .imported i => module.imports[i]?.map (·.f)
  | .defined j => module.funcs[j]?

/-- `fw_module_get_export_func` on a compiled module, as the pointer that it returns: in `func`
an export has the entry of `instance->funcs` at its index. The name is a C string here too. -/
def fwModuleGetExportAddr (module : FwModule) (funcname : List UInt8) : Option FuncAddr :=
  (module.exports.find? fun exp => fwStrCmpEq exp.name (cString funcname)).bind fun exp =>
    module.funcAddrs[exp.idx.toNat]?

section Addrs

variable {module module' : FwModule} {imports : FwImportFuncWrap} {funcs : List FwModuleFunc}

theorem length_funcAddrs (module : FwModule) :
    module.funcAddrs.length = module.imports.length + module.funcs.length := by
  simp [FwModule.funcAddrs]

/-- No two entries are the same pointer, so a pointer tells the index. -/
theorem funcAddrs_inj {i j : ℕ} {p : FuncAddr} (hi : module.funcAddrs[i]? = some p)
    (hj : module.funcAddrs[j]? = some p) : i = j := by
  have hnodup : module.funcAddrs.Nodup := by
    refine List.Nodup.append ?_ ?_ ?_
    · exact List.nodup_range.map fun _ _ h => FuncAddr.imported.inj h
    · exact List.nodup_range.map fun _ _ h => FuncAddr.defined.inj h
    · intro p hp hp'
      obtain ⟨_, -, rfl⟩ := List.mem_map.mp hp
      obtain ⟨_, -, h⟩ := List.mem_map.mp hp'
      cases h
  obtain ⟨hi', rfl⟩ := List.getElem?_eq_some_iff.mp hi
  obtain ⟨hj', h⟩ := List.getElem?_eq_some_iff.mp hj
  exact (hnodup.getElem_inj_iff.mp h).symm

/-- The pointers point to the functions of the instance. -/
theorem Compiled.deref (h : Compiled imports module module' funcs) (i : ℕ) :
    funcs[i]? = (module'.funcAddrs[i]?).bind module'.deref := by
  rw [h.layout, FwModule.funcAddrs]
  rcases Nat.lt_or_ge i module'.imports.length with hi | hi
  · rw [List.getElem?_append_left (by simpa using hi),
      List.getElem?_append_left (by simpa using hi)]
    simp [FwModule.deref, hi]
  · rw [List.getElem?_append_right (by simpa using hi),
      List.getElem?_append_right (by simpa using hi)]
    simp only [List.length_map, List.length_range, List.getElem?_map]
    rcases Nat.lt_or_ge (i - module'.imports.length) module'.funcs.length with hj | hj
    · simp [FwModule.deref, hj]
    · simp [hj]

end Addrs

/-! ## Lookup

A compiled module has the exports of the one that was compiled, each with a function at its index.
So what is found under a name depends on the exports alone, and on whether the module compiles. -/

/-- The lookup of a name finds the function exports of that name and nothing else, and no export of
another kind stands in the way of compilation. It is said of every verdict of compilation, and a
module that does not compile has nothing to look up. -/
structure LookupFunctions (mem : Mem) (imports : FwImportFuncWrap) (module : FwModule)
    (funcname : List UInt8) : Prop where
  /-- what is returned is the function that a pointer points to -/
  value : ∀ module', fwModuleCompile mem module imports = .ok (.ok, module') →
    fwModuleGetExportFunc module' funcname =
      (fwModuleGetExportAddr module' funcname).map module'.deref
  /-- the pointer is that of an exported function -/
  resolves : ∀ module', fwModuleCompile mem module imports = .ok (.ok, module') → ∀ p,
    fwModuleGetExportAddr module' funcname = some p ↔ ∃ exp ∈ module'.exports,
      exp.kind = 0 ∧ exp.name = cString funcname ∧ module'.funcAddrs[exp.idx.toNat]? = some p
  /-- exports of other kinds do not matter -/
  independent : (∃ module', fwModuleCompile mem
      { module with exports := module.exports.filter fun exp => exp.kind = 0 } imports =
        .ok (.ok, module')) →
    ∃ module', fwModuleCompile mem module imports = .ok (.ok, module')
  /-- compilation writes over nothing -/
  intact : fwModuleCompile mem module imports ≠ .error (.fault .overBytes)

/-- The first export whose name compares equal shares its index with a function export of that name,
and with all of them. It may be of another kind itself, as long as the index is the right one. -/
def NamesFunctions (exports : List FwModuleExport) (funcname : List UInt8) : Prop :=
  ∀ first, (exports.find? fun exp => fwStrCmpEq exp.name funcname) = some first →
    (∃ exp ∈ exports, exp.kind = 0 ∧ exp.name = funcname ∧ exp.idx = first.idx) ∧
      ∀ exp ∈ exports, exp.kind = 0 → exp.name = funcname → exp.idx = first.idx

section Lookup

variable {mem : Mem} {imports : FwImportFuncWrap} {module module' : FwModule}
  {funcs : List FwModuleFunc} {funcname : List UInt8}

theorem fwStrCmpEq_self (a : List UInt8) : fwStrCmpEq a a := by
  simp [fwStrCmpEq]

/-- The exports of a compiled module are found as those of the module. -/
theorem Compiled.find_export (h : Compiled imports module module' funcs)
    (funcname : List UInt8) : (module'.exports.find? fun exp => fwStrCmpEq exp.name funcname) =
      (module.exports.find? fun exp => fwStrCmpEq exp.name funcname).map fun exp =>
        { exp with func := funcs[exp.idx.toNat]? } := by
  rw [h.exports, List.find?_map]
  rfl

theorem Compiled.getExportAddr (h : Compiled imports module module' funcs)
    (funcname : List UInt8) : fwModuleGetExportAddr module' funcname =
      (module.exports.find? fun exp => fwStrCmpEq exp.name (cString funcname)).bind fun exp =>
        module'.funcAddrs[exp.idx.toNat]? := by
  rw [fwModuleGetExportAddr, h.find_export, Option.bind_map]
  rfl

/-- An index in range is that of a pointer: `instance->funcs` has an entry there. -/
theorem Compiled.exists_addr (h : Compiled imports module module' funcs)
    {exp : FwModuleExport} (hlt : exp.idx.toNat < module.funcBound) :
    ∃ p, module'.funcAddrs[exp.idx.toNat]? = some p := by
  have hlen : module'.funcAddrs.length = module.imports.length + module.funcs.length := by
    have himports := h.imported.length_eq
    rw [List.length_map] at himports
    rw [length_funcAddrs, ← himports, h.defined.length_eq]
  rw [FwModule.funcBound] at hlt
  have := Nat.mod_le (module.funcs.length + module.imports.length) (2 ^ 32)
  exact ⟨_, List.getElem?_eq_getElem (by omega)⟩

theorem getExportFunc_eq (h : Compiled imports module module' funcs)
    (hlt : ∀ exp ∈ module.exports, exp.idx.toNat < module.funcBound) :
    fwModuleGetExportFunc module' funcname =
      (fwModuleGetExportAddr module' funcname).map module'.deref := by
  rw [h.getExportAddr, fwModuleGetExportFunc, h.find_export]
  cases hfirst : module.exports.find? fun exp => fwStrCmpEq exp.name (cString funcname) with
  | none => rfl
  | some first =>
    obtain ⟨p, hp⟩ := h.exists_addr (hlt first (List.mem_of_find?_eq_some hfirst))
    rw [Option.bind_some, hp, Option.map_some, Option.map_some, Option.map_some, h.deref, hp]
    rfl

/-- The lookup of a name finds its function exports if and only if the first export that compares
equal is as good as one of them. -/
theorem resolves_iff_names (h : Compiled imports module module' funcs)
    (hlt : ∀ exp ∈ module.exports, exp.idx.toNat < module.funcBound) :
    (∀ p, fwModuleGetExportAddr module' funcname = some p ↔ ∃ exp ∈ module'.exports,
      exp.kind = 0 ∧ exp.name = cString funcname ∧ module'.funcAddrs[exp.idx.toNat]? = some p) ↔
        NamesFunctions module.exports (cString funcname) := by
  have hmem (p : FuncAddr) : (∃ exp ∈ module'.exports, exp.kind = 0 ∧ exp.name = cString funcname ∧
      module'.funcAddrs[exp.idx.toNat]? = some p) ↔ ∃ exp ∈ module.exports, exp.kind = 0 ∧
        exp.name = cString funcname ∧ module'.funcAddrs[exp.idx.toNat]? = some p := by
    rw [h.exports]
    simp only [List.mem_map, exists_exists_and_eq_and]
  simp only [h.getExportAddr, hmem, Option.bind_eq_some_iff]
  refine ⟨?_, ?_⟩
  · intro hall first hfirst
    obtain ⟨p, hp⟩ := h.exists_addr (hlt first (List.mem_of_find?_eq_some hfirst))
    refine ⟨?_, ?_⟩
    · obtain ⟨exp, hexp, hkind, hname, hp'⟩ := (hall p).mp ⟨first, hfirst, hp⟩
      exact ⟨exp, hexp, hkind, hname, UInt32.toNat_inj.mp (funcAddrs_inj hp' hp)⟩
    · intro exp hexp hkind hname
      obtain ⟨q, hq⟩ := h.exists_addr (hlt exp hexp)
      obtain ⟨first', hfirst', hq'⟩ := (hall q).mpr ⟨exp, hexp, hkind, hname, hq⟩
      obtain rfl := Option.some.inj (hfirst.symm.trans hfirst')
      exact UInt32.toNat_inj.mp (funcAddrs_inj hq hq')
  · intro hnames p
    refine ⟨?_, ?_⟩
    · rintro ⟨first, hfirst, hp⟩
      obtain ⟨⟨exp, hexp, hkind, hname, hidx⟩, -⟩ := hnames first hfirst
      exact ⟨exp, hexp, hkind, hname, hidx ▸ hp⟩
    · rintro ⟨exp, hexp, hkind, hname, hp⟩
      have heq : fwStrCmpEq exp.name (cString funcname) := hname ▸ fwStrCmpEq_self exp.name
      obtain ⟨first, hfirst⟩ := Option.isSome_iff_exists.mp <|
        List.find?_isSome (p := fun exp => fwStrCmpEq exp.name (cString funcname)) |>.mpr
          ⟨exp, hexp, heq⟩
      rw [(hnames first hfirst).2 exp hexp hkind hname] at hp
      exact ⟨first, hfirst, hp⟩

/-- The lookup of a name finds functions only, and exports of other kinds do not matter, if and only
if a module that is not compiled yet is such: no walk over a body writes over the file, and when the
module compiles up to exports that are no functions, the indices of these are in the range of the
functions too, and the first export whose name compares equal shares its index with all function
exports of the name, and with one at least. -/
theorem lookup_functions_iff (mem : Mem) (imports : FwImportFuncWrap) (module : FwModule)
    (funcname : List UInt8) : LookupFunctions mem imports module funcname ↔
      (module.inst = none → firstHalt mem module.funcs ≠ some (.fault .overBytes) ∧
        ((∀ func ∈ module.funcs, func.Returns mem) →
        (∀ imp ∈ module.imports, imp.Resolves module.type imports) →
        (∀ exp ∈ module.exports, exp.kind = 0 → exp.idx.toNat < module.funcBound) →
          (∀ exp ∈ module.exports, exp.idx.toNat < module.funcBound) ∧
            NamesFunctions module.exports (cString funcname))) := by
  have hfuncs : (∃ module', fwModuleCompile mem
      { module with exports := module.exports.filter fun exp => exp.kind = 0 } imports =
        .ok (.ok, module')) ↔ module.inst = none ∧ (∀ func ∈ module.funcs, func.Returns mem) ∧
          (∀ imp ∈ module.imports, imp.Resolves module.type imports) ∧
            ∀ exp ∈ module.exports, exp.kind = 0 → exp.idx.toNat < module.funcBound := by
    rw [compile_ok_iff]
    simp only [List.mem_filter, decide_eq_true_iff, and_imp]
    rfl
  refine ⟨?_, ?_⟩
  · rintro ⟨-, hresolves, hindep, hintact⟩ hinst
    refine ⟨fun h => hintact (compile_eq_error.mpr ⟨hinst, h⟩),
      fun hreturns himports hexports => ?_⟩
    obtain ⟨module', h⟩ := hindep (hfuncs.mpr ⟨hinst, hreturns, himports, hexports⟩)
    obtain ⟨-, -, -, hlt⟩ := compile_ok_iff.mp ⟨module', h⟩
    obtain ⟨funcs, hc⟩ := compiled_of_compile h
    exact ⟨hlt, (resolves_iff_names hc hlt).mp (hresolves module' h)⟩
  · intro hall
    have hcompiled {module' : FwModule}
        (h : fwModuleCompile mem module imports = .ok (.ok, module')) :
        ∃ funcs, Compiled imports module module' funcs ∧
          (∀ exp ∈ module.exports, exp.idx.toNat < module.funcBound) ∧
            NamesFunctions module.exports (cString funcname) := by
      obtain ⟨hinst, hreturns, himports, hlt⟩ := compile_ok_iff.mp ⟨module', h⟩
      obtain ⟨funcs, hc⟩ := compiled_of_compile h
      exact ⟨funcs, hc, hlt,
        ((hall hinst).2 hreturns himports fun exp hexp _ => hlt exp hexp).2⟩
    refine ⟨fun module' h => ?_, fun module' h => ?_, fun h => ?_, fun h => ?_⟩
    · obtain ⟨funcs, hc, hlt, -⟩ := hcompiled h
      exact getExportFunc_eq hc hlt
    · obtain ⟨funcs, hc, hlt, hnames⟩ := hcompiled h
      exact (resolves_iff_names hc hlt).mpr hnames
    · obtain ⟨hinst, hreturns, himports, hexports⟩ := hfuncs.mp h
      exact compile_ok_iff.mpr
        ⟨hinst, hreturns, himports, ((hall hinst).2 hreturns himports hexports).1⟩
    · obtain ⟨hinst, hover⟩ := compile_eq_error.mp h
      exact (hall hinst).1 hover

end Lookup

/-- A module with one function, and a table that is exported as `t`. -/
def tableExport : FwModule :=
  ⟨[], [], [⟨0, ⟨0, 0, []⟩, ⟨0, 1⟩, none, .init⟩], [⟨[0x74], 1, 0, none⟩], none⟩

/-- The name of the table finds the function, which was not exported under any name. -/
theorem tableExport_not_function :
    ¬ LookupFunctions (memOf [0x0b]) (fun _ => []) tableExport [0x74] := by
  intro h
  obtain ⟨exp, hexp, hkind, -⟩ := (h.resolves _ rfl (.defined 0)).mp rfl
  rw [List.mem_singleton.mp hexp] at hkind
  exact absurd hkind (by decide)

end FastWasm
