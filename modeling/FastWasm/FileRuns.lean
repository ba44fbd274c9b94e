import FastWasm.ModuleFiles
import FastWasm.Programs

/-!
# From the file to the run

A file of a module whose functions are structured code, loaded, compiled with a registry that has
the imported functions, and run: every exported name is that of a function of the program that the
module describes, and the run comes to what the program means (`file_adequate`).

It is put together from three results. The file is read back as the module that it was written from;
of a module that was read back so, compilation finds the parts (`ModuleSpec.Found`) and returns
`FW_OK`, with the imported functions resolved and every body validated into the block table of its
tree; and a program of such functions runs as it means. What the module has to be for each of them
is a structure of its own: `Loadable` is about the sections, `Compilable` about the code, the
imports and the exports.
-/

namespace FastWasm

open Logged
open Leb128

variable {mem : Mem} {m : ModuleSpec} {calls : List AddFunc} {codes : List Code}

/-! ## The program of a module

What a module in a file means, without loading anything: its imports are host functions of the
registry, and its functions are trees. -/

/-- What an import becomes: the host function that was registered last under its names. -/
def FwModuleImport.HostOf (calls : List AddFunc) (types : List TypeSpec) (imp : FwModuleImport)
    (func : FwModuleFunc) : Prop :=
  (∃ c, LatestBy (·.Matches imp.mname imp.nsname) calls c ∧ func.hostAddr = c.faddr) ∧
    ∃ t, types[imp.typeidx.toNat]? = some t ∧ t.Stored func.functype

/-- What a defined function becomes: a function with its type, its locals and its bytes, and no
blocks yet. -/
structure FuncCode.Becomes (mem : Mem) (types : List TypeSpec) (f : FuncCode)
    (func : FwModuleFunc) : Prop where
  /-- it is not a host function -/
  wasm : func.hostAddr = none
  /-- the number of locals -/
  localCnt : func.localCnt.toNat = sumLocals f.groups
  /-- the type -/
  functype : ∃ t, types[f.typeidx.toNat]? = some t ∧ t.Stored func.functype
  /-- the bytes of the body -/
  holds : Holds mem func.body.pos f.body
  /-- and no more -/
  last : func.body.last = func.body.pos + f.body.length

/-- A function is the encoding of a tree without a misplaced `else`, and the handlers read the
immediates of the tree as they are written. -/
structure FuncCode.Structured (f : FuncCode) (code : Code) : Prop where
  /-- its bytes -/
  body : f.body = code.body
  /-- the tree -/
  asRead : code.AsRead
  /-- every `else` goes to its own `if` -/
  covered : code.Covered

namespace ModuleSpec

/-- The imported functions, as `compile` finds them: those of the imports that are functions, in
their order. -/
def funcImports (m : ModuleSpec) : List FwModuleImport := m.imports.filterMap (·.stored.toImport)

/-- What compilation asks of a module of structured code. The number of functions is a `uint32_t`,
so an export is compared with it modulo 2^32. -/
structure Compilable (m : ModuleSpec) (calls : List AddFunc) (codes : List Code) : Prop where
  /-- the functions are structured code -/
  codes : List.Forall₂ FuncCode.Structured m.funcs codes
  /-- the imported functions are registered and have types of the module -/
  imports : ∀ imp ∈ m.funcImports, imp.typeidx.toNat < m.types.length ∧
    ∃ c ∈ calls, c.Matches imp.mname imp.nsname
  /-- the exports are compared with the number of functions -/
  exports : ∀ x ∈ m.exports, x.idx.toNat < (m.funcs.length + m.funcImports.length) % 2 ^ 32

/-- The functions of the program: the imported ones, and behind them the defined ones. An import has
no code, and the host function that was registered last under its names. -/
def IsProgram (m : ModuleSpec) (calls : List AddFunc) (codes : List Code)
    (prog : List (Coded mem)) : Prop :=
  ∃ hosts defs, prog = hosts ++ defs ∧
    List.Forall₂ (fun imp c => imp.HostOf calls m.types c.func) m.funcImports hosts ∧
    List.Forall₂ (fun f c => f.Becomes mem m.types c.func) m.funcs defs ∧
    defs.map Coded.code = codes

/-- The first export whose name compares equal with the C string that is looked up. -/
def findExport (m : ModuleSpec) (funcname : List UInt8) : Option ExportSpec :=
  m.exports.find? fun x => fwStrCmpEq x.name (cString funcname)

end ModuleSpec

/-! ## The loaded module

The loader keeps slices of the file, and `compile` reads a part of what the loader keeps. -/

section Loaded

variable {loaded : LoadedModule} {module : FwModule}

/-- A loaded function as `compile` finds it is the function that was in the module. -/
theorem becomes_of_loaded {types : List FwModuleType} {f : FuncCode} {func : LoadedFunc}
    (htypes : List.Forall₂ TypeSpec.Stored m.types types) (h : f.Loaded mem types func) :
    ∃ func', func.toFunc = some func' ∧ func'.blks = .init ∧ f.Becomes mem m.types func' := by
  obtain ⟨⟨t, ht, hfunc⟩, hcnt, -, hm, hlast⟩ := h
  obtain ⟨hlt, rfl⟩ := List.getElem?_eq_some_iff.mp ht
  have hlt' : f.typeidx.toNat < m.types.length := htypes.length_eq ▸ hlt
  refine ⟨_, by rw [LoadedFunc.toFunc, hfunc]; rfl, rfl, rfl, hcnt, ?_, hm, hlast⟩
  exact ⟨_, List.getElem?_eq_getElem hlt', (List.forall₂_iff_get.mp htypes).2 _ hlt' hlt⟩

/-- The functions of a loaded module as `compile` finds them. -/
theorem exists_funcs {types : List FwModuleType} {fs : List FuncCode} {funcs : List LoadedFunc}
    (htypes : List.Forall₂ TypeSpec.Stored m.types types)
    (h : List.Forall₂ (FuncCode.Loaded mem types) fs funcs) :
    ∃ funcs' : List FwModuleFunc, funcs'.map some = funcs.map (·.toFunc) ∧
      List.Forall₂ (fun f func => func.blks = .init ∧ f.Becomes mem m.types func) fs funcs' := by
  induction h with
  | nil => exact ⟨[], rfl, .nil⟩
  | cons head _ ih =>
    obtain ⟨func, hfunc, hbecomes⟩ := becomes_of_loaded htypes head
    obtain ⟨funcs, hmap, hall⟩ := ih
    exact ⟨func :: funcs, by rw [List.map_cons, List.map_cons, hmap, hfunc], .cons hbecomes hall⟩

theorem filterMap_storedOf (imps : List ImportSpec) :
    (storedOf .func imps).filterMap (·.toImport) = imps.filterMap (·.stored.toImport) := by
  rw [storedOf, importsOf, List.filterMap_filter, List.filterMap_map]
  refine List.filterMap_congr fun imp _ => ?_
  obtain ⟨mname, nsname, _ | _ | _ | _⟩ := imp
  all_goals rfl

theorem exports_eq {exports : List LoadedExport}
    (h : List.Forall₂ ExportSpec.Stored m.exports exports) :
    exports.map (fun exp => (⟨exp.name, exp.kind, exp.idx, none⟩ : FwModuleExport)) =
      m.exports.map fun x => ⟨x.name, x.kind, x.idx, none⟩ := by
  rw [← List.forall₂_eq_eq_eq, List.forall₂_map_left_iff, List.forall₂_map_right_iff]
  refine h.flip.imp fun exp x hx => ?_
  rw [hx.1, hx.2.1, hx.2.2]

/-- A loaded module as `compile` finds it: the types, the functions, the imported functions and the
exports are those of the module in the file. -/
structure ModuleSpec.Found (mem : Mem) (m : ModuleSpec) (module : FwModule) : Prop where
  /-- the types -/
  types : List.Forall₂ TypeSpec.Stored m.types module.type
  /-- the imported functions -/
  imports : module.imports = m.funcImports
  /-- the defined functions -/
  funcs : List.Forall₂ (fun f func => func.blks = .init ∧ f.Becomes mem m.types func) m.funcs
    module.funcs
  /-- the exports -/
  exports : module.exports = m.exports.map fun x => ⟨x.name, x.kind, x.idx, none⟩
  /-- it is not compiled -/
  inst : module.inst = none

theorem exists_found (h : m.Loaded mem loaded) :
    ∃ module, loaded.Gives module ∧ m.Found mem module := by
  obtain ⟨funcs, hmap, hfuncs⟩ := exists_funcs h.types.entries h.funcs.entries
  have himports : storedOf .func m.imports = loaded.imports .func := by
    rw [← List.forall₂_eq_eq_eq]
    exact (h.imports .func).entries
  refine ⟨⟨loaded.type.getD [], m.funcImports, funcs, _, none⟩, ⟨rfl, ?_, hmap, rfl, rfl⟩,
    h.types.entries, rfl, hfuncs, exports_eq h.exports.entries, rfl⟩
  rw [← himports, filterMap_storedOf]
  rfl

end Loaded

/-! ## Compilation

Nothing in a compilable module gives compilation a reason to stop or to give up. -/

section Compile

variable {module module' : FwModule}

theorem ModuleSpec.Found.sources (h : m.Found mem module)
    (hcodes : List.Forall₂ FuncCode.Structured m.funcs codes) :
    List.Forall₂ (Source mem) module.funcs codes := by
  refine List.forall₂_iff_get.mpr
    ⟨h.funcs.length_eq.symm.trans hcodes.length_eq, fun i hi hi' => ?_⟩
  have hlt : i < m.funcs.length := h.funcs.length_eq ▸ hi
  obtain ⟨hblks, hfunc⟩ := h.funcs.get hlt hi
  obtain ⟨hbody, hwf, hcov⟩ := hcodes.get hlt hi'
  exact ⟨hfunc.wasm, hblks, hwf, hcov, hbody ▸ hfunc.holds, hbody ▸ hfunc.last⟩

/-- It compiles, with the registry that the calls have made. -/
theorem ModuleSpec.Found.compiles (h : m.Found mem module) (hm : m.Compilable calls codes) :
    ∃ module', fwModuleCompile mem module (fwImportFuncs calls) = .ok (.ok, module') := by
  refine compile_ok_iff.mpr ⟨h.inst, fun func hfunc => ?_, fun imp himp => ?_, fun exp hexp => ?_⟩
  · obtain ⟨i, rfl⟩ := List.mem_iff_get.mp hfunc
    have hsources := h.sources hm.codes
    exact (hsources.get i.isLt (hsources.length_eq ▸ i.isLt)).returns
  · rw [h.imports] at himp
    obtain ⟨hlt, hreg⟩ := hm.imports imp himp
    refine ⟨?_, h.types.length_eq ▸ hlt⟩
    obtain ⟨c, hc⟩ := exists_latestBy.mpr hreg
    exact Option.isSome_iff_exists.mpr ⟨_, find_eq_some.mpr ⟨c, hc, rfl⟩⟩
  · rw [h.exports] at hexp
    obtain ⟨x, hx, rfl⟩ := List.mem_map.mp hexp
    rw [FwModule.funcBound, h.imports, ← h.funcs.length_eq]
    exact hm.exports x hx

/-- What is compiled is the program: the functions are the same, with the block tables of their
trees. The imports come first, each with the host function that the lookup finds and the type that
the module gives it. -/
theorem ModuleSpec.Found.isProgram (h : m.Found mem module)
    (hcompile : fwModuleCompile mem module (fwImportFuncs calls) = .ok (.ok, module'))
    {prog : List (Coded mem)} (hprog : prog.map Coded.func = module'.inst.getD [])
    (hcode : prog.map Coded.code = List.replicate module.imports.length .nil ++ codes) :
    m.IsProgram calls codes prog := by
  obtain ⟨funcs, hinst, rfl, himported, hdefined, -⟩ := compiled_of_compile hcompile
  rw [hinst, Option.getD_some] at hprog
  obtain ⟨hosts, defs, rfl, hhosts, hdefs⟩ := List.map_eq_append_iff.mp hprog
  rw [List.map_append] at hcode
  have hlen : (hosts.map Coded.code).length =
      (List.replicate module.imports.length Code.nil).length := by
    have hlen := congrArg List.length hhosts
    rw [List.length_map, ← himported.length_eq] at hlen
    rw [List.length_map, hlen, List.length_replicate]
  refine ⟨hosts, defs, rfl, ?_, ?_, (List.append_inj hcode hlen).2⟩
  · rw [← hhosts, h.imports, List.forall₂_map_right_iff] at himported
    refine himported.imp fun imp c himp => ?_
    obtain ⟨host, functype, hfind, htype, hc⟩ := himp
    obtain ⟨call, hcall, rfl⟩ := find_eq_some.mp hfind
    obtain ⟨hlt, rfl⟩ := List.getElem?_eq_some_iff.mp htype
    have hlt' : imp.typeidx.toNat < m.types.length := h.types.length_eq ▸ hlt
    rw [FwModuleImport.HostOf, hc]
    exact ⟨⟨call, hcall, rfl⟩, _, List.getElem?_eq_getElem hlt', h.types.get hlt' hlt⟩
  · rw [← hdefs, List.forall₂_map_right_iff] at hdefined
    refine List.forall₂_iff_get.mpr
      ⟨h.funcs.length_eq.trans hdefined.length_eq, fun i hi hi' => ?_⟩
    have hlt : i < module.funcs.length := h.funcs.length_eq ▸ hi
    obtain ⟨-, hfunc⟩ := h.funcs.get hi hlt
    obtain ⟨blks, hc⟩ := hdefined.get hlt hi'
    rw [hc]
    exact { hfunc with }

/-- A name is looked up among the exports of the module. -/
theorem ModuleSpec.Found.getExportFunc (h : m.Found mem module) {funcs : List FwModuleFunc}
    (hc : Compiled (fwImportFuncs calls) module module' funcs) (funcname : List UInt8) :
    fwModuleGetExportFunc module' funcname =
      (m.findExport funcname).map fun x => funcs[x.idx.toNat]? := by
  rw [fwModuleGetExportFunc, hc.find_export, h.exports, List.find?_map, Option.map_map,
    Option.map_map]
  rfl

/-- An exported name finds the function of the program at the index of its export. -/
theorem ModuleSpec.Found.find (h : m.Found mem module) (hm : m.Compilable calls codes)
    (hcompile : fwModuleCompile mem module (fwImportFuncs calls) = .ok (.ok, module'))
    {prog : List (Coded mem)} (hprog : prog.map Coded.func = module'.inst.getD [])
    {funcname : List UInt8} {x : ExportSpec} (hx : m.findExport funcname = some x) :
    ∃ f, prog[x.idx.toNat]? = some f ∧
      fwModuleGetExportFunc module' funcname = some (some f.func) := by
  obtain ⟨funcs, hc⟩ := compiled_of_compile hcompile
  rw [hc.inst, Option.getD_some] at hprog
  have hlen : prog.length = module.funcs.length + module.imports.length := by
    have himports := hc.imported.length_eq
    have hfuncs := hc.defined.length_eq
    have hlayout := congrArg List.length hc.layout
    rw [← hprog, List.length_map, List.length_append] at hlayout
    omega
  have hlt : x.idx.toNat < prog.length := by
    have hexport := hm.exports x (List.mem_of_find?_eq_some hx)
    rw [← h.imports, h.funcs.length_eq, ← hlen] at hexport
    exact hexport.trans_le (Nat.mod_le _ _)
  refine ⟨prog[x.idx.toNat], List.getElem?_eq_getElem hlt, ?_⟩
  rw [h.getExportFunc hc, hx, Option.map_some, ← hprog, List.getElem?_map,
    List.getElem?_eq_getElem hlt, Option.map_some]

end Compile

/-! ## The run

The bytes of the file stay where they are, so the program is run from the memory that the file was
loaded from. -/

/-- From the file to the run: the file of a module of structured code, whose imported functions are
registered and whose exports are in range, loads, and what is loaded compiles. Every exported name
is that of a function of the program the module describes, and a run of it comes to what the program
means; a run of another name is refused.

The module is one whose sections come back from its file (`hm`), which leaves out imported tables,
types of 256 parameters or results, and segments of more than one function; it has no memories
(`hmem`), at which the parse stops. The file is any that is written for it (`hw`, `hfile`, `hlast`).
The code and the imports are as compilation wants them (`hcompilable`), and no host function was
registered with a `NULL` pointer, which the executor would take for a wasm function (`hcalls`).
Where the program has a `return` behind a call of a wasm function, its meaning may stop in another
function, and then nothing is said about the run. -/
theorem file_adequate {env : Env} {secs : List RawSection} {str : FwStr} (hm : m.Loadable)
    (hmem : m.memories = []) (hw : m.Written secs) (hfile : Holds env.mem str.pos (encodeFile secs))
    (hlast : str.last = str.pos + (encodeFile secs).length) (hcompilable : m.Compilable calls codes)
    (hcalls : ∀ c ∈ calls, c.faddr ≠ none) :
    ∃ loaded module module', fwModuleLoad env.mem (some str) = .ok (some loaded) ∧
      loaded.Gives module ∧
      fwModuleCompile env.mem module (fwImportFuncs calls) = .ok (.ok, module') ∧
      (∀ funcname, m.findExport funcname = none → ∀ n args rets,
        fwModuleRun env n module' funcname args rets = pure (.err, none)) ∧
      ∃ prog : List (Coded env.mem), m.IsProgram calls codes prog ∧
        ∀ funcname x, m.findExport funcname = some x →
          ∃ f, prog[x.idx.toNat]? = some f ∧ ∀ depth args rets s, Realizes (depth + 1) s
            (f.runDenote { env with funcs := prog.map Coded.func } prog depth args rets)
            fun n => fwModuleRun env n module' funcname args rets := by
  have hpart : m.loadedPart = m := if_pos hmem
  obtain ⟨loaded, hload, hloaded⟩ := exists_loaded_of_file (hpart.symm ▸ hm) hw hfile hlast
  rw [hpart] at hloaded
  obtain ⟨module, hgives, hfound⟩ := exists_found hloaded
  obtain ⟨module', hcompile⟩ := hfound.compiles hcompilable
  obtain ⟨prog, hprog, hcode⟩ := exists_program hcalls hcompile (hfound.sources hcompilable.codes)
  refine ⟨loaded, module, module', hload, hgives, hcompile, fun funcname hnone n args rets => ?_,
    prog, hfound.isProgram hcompile hprog hcode, fun funcname x hx => ?_⟩
  · obtain ⟨funcs, hc⟩ := compiled_of_compile hcompile
    rw [fwModuleRun, hfound.getExportFunc hc, hnone]
    rfl
  · obtain ⟨f, hf, hexport⟩ := hfound.find hcompilable hcompile hprog hx
    refine ⟨f, hf, fun depth args rets s => ?_⟩
    refine (@run_adequate { env with funcs := prog.map Coded.func } _ rfl depth f args rets
      s).congr fun n => ?_
    rw [fwModuleRun, hexport, hprog]

/-- The file of the module of two functions, with a custom section among its sections. -/
def twoFuncsEnv : Env := zeroEnv (memOf (encodeFile twoFuncsSections)) []

theorem twoFuncs_compilable : twoFuncs.Compilable [] callsBlockCodes := by
  obtain ⟨⟨hcall, hcov⟩, hrest⟩ := List.forall_mem_cons.mp callsBlock_asRead
  obtain ⟨hblock, hcov'⟩ := List.forall_mem_singleton.mp hrest
  exact ⟨.cons ⟨rfl, hcall, hcov⟩ (.cons ⟨rfl, hblock, hcov'⟩ .nil), List.forall_mem_nil _,
    List.forall_mem_singleton.mpr (by decide)⟩

/-- It is loaded, compiled and run as the program of its two trees. -/
theorem twoFuncs_adequate :
    ∃ loaded module module', fwModuleLoad twoFuncsEnv.mem
        (some ⟨0, (encodeFile twoFuncsSections).length⟩) = .ok (some loaded) ∧
      loaded.Gives module ∧
      fwModuleCompile twoFuncsEnv.mem module (fwImportFuncs []) = .ok (.ok, module') ∧
      ∃ prog : List (Coded twoFuncsEnv.mem), twoFuncs.IsProgram [] callsBlockCodes prog ∧
        ∃ f, prog[0]? = some f ∧ ∀ depth args rets s, Realizes (depth + 1) s
          (f.runDenote { twoFuncsEnv with funcs := prog.map Coded.func } prog depth args rets)
          fun n => fwModuleRun twoFuncsEnv n module' [0x66] args rets := by
  obtain ⟨loaded, module, module', hload, hgives, hcompile, -, prog, hprog, hexports⟩ :=
    @file_adequate _ _ _ twoFuncsEnv _ ⟨0, _⟩ twoFuncs_loadable rfl twoFuncs_written
      (holds_memOf _) (Nat.zero_add _).symm twoFuncs_compilable (List.forall_mem_nil _)
  exact ⟨loaded, module, module', hload, hgives, hcompile, prog, hprog,
    hexports [0x66] ⟨[0x66], 0, 0⟩ rfl⟩

end FastWasm
