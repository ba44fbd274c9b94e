import FastWasm.Consume
import FastWasm.Run

/-!
# Modules and their compilation (`jit/fw_compile.c`)

The registry of host functions, `fw_module_compile` on the arrays it reads, and `fw_module_run`. A
counted array of the source is a list here, its count the length of the list.

A name comes in two ways. In a file it has a length, and any bytes; from the command line and from
`add_func` it is a C string, which ends at its first zero (`cString`). The two are compared by
`fw_str_cmp`, which compares lengths first, so a name of a file that holds a zero is like no C
string. The lengths are 32-bit numbers.

Compilation goes on or gives up at three places: an import that is not registered, an export whose
index is not that of a function, and a module that is compiled already. A body never makes it give
up, only stop: `fwModuleCompile` halts where a walk over a body does not come back with a status.
-/

namespace FastWasm

open Logged

/-! ## Host functions

A name in a registry is a C string, whatever bytes were given for it. The hash of two names goes by
their first bytes, so it is 0 for two empty ones. -/

/-- `fw_import_func_t`; the argument and result counts given to `add_func` are not read, so
an import may have any type. The pointer is whatever was registered, `NULL` too. -/
structure FwImportFunc where
  /-- the module name -/
  mname : List UInt8
  /-- the field name -/
  nsname : List UInt8
  /-- the host function -/
  ptr : Option ℕ
  deriving DecidableEq, Repr

/-- `fw_import_func_wrap_t`: one list for each of the `FW_MAX_IMPORT_HASH` hash values. The latest
entry is at the front. -/
abbrev FwImportFuncWrap : Type := ℕ → List FwImportFunc

/-- The bytes of a C string, given the bytes from its address on: those before the first zero, which
is what `strlen` counts. -/
def cString (str : List UInt8) : List UInt8 := str.takeWhile (· ≠ 0)

/-- `fw_str_cmp` is 0: equal lengths as `uint32_t`, and equal bytes up to that length. Names of less
than 2^32 bytes compare equal only when they are equal. -/
def fwStrCmpEq (a b : List UInt8) : Bool :=
  let alen := a.length % 2 ^ 32
  let blen := b.length % 2 ^ 32
  alen = blen && a.take alen = b.take alen

/-- The hash of two names: their first bytes, the terminating zero when a name is empty. -/
def fwImportHash (mname nsname : List UInt8) : ℕ :=
  ((nsname.headD 0).toNat + (mname.headD 0).toNat) % 8

/-- `fw_import_func_wrap_find`: the first function of the list that has the two names. The list is
that of their hash. -/
def fwImportFuncWrapFind (funcs : FwImportFuncWrap) (mname nsname : List UInt8) :
    Option FwImportFunc :=
  (funcs (fwImportHash mname nsname)).find? fun func =>
    fwStrCmpEq mname func.mname && fwStrCmpEq nsname func.nsname

/-! ## Modules

The loader has filled a module with more than is read from here on. Only functions, types, imports
and exports are, and what compilation itself sets. -/

/-- `fw_module_import_t` of kind `FW_IMPORT_KIND_FUNC`. Imports of other kinds are loaded and never
looked at again, by compilation or by the executor. -/
structure FwModuleImport where
  /-- the module name -/
  mname : List UInt8
  /-- the field name -/
  nsname : List UInt8
  /-- the imported function -/
  f : FwModuleFunc
  /-- the index of its type -/
  typeidx : UInt32

/-- `fw_module_export_t`; `func` is set by `compile`, to the entry at `idx` of the functions,
whatever the kind. -/
structure FwModuleExport where
  /-- the exported name -/
  name : List UInt8
  /-- the kind -/
  kind : UInt8
  /-- the index -/
  idx : UInt32
  /-- the function at that index -/
  func : Option FwModuleFunc

/-- `fw_module_t`, the fields that `compile` and `run` read. A module is compiled when it has
an instance, that is, from the first attempt on, whether it went well or not. -/
structure FwModule where
  /-- the types -/
  type : List FwModuleType
  /-- the imported functions -/
  imports : List FwModuleImport
  /-- the defined functions -/
  funcs : List FwModuleFunc
  /-- the exports -/
  exports : List FwModuleExport
  /-- `instance->funcs` -/
  inst : Option (List FwModuleFunc)

/-! ## `fw_module_compile`

The bodies first, then the imports, then the exports, and each of these loops stops at the first
error. What it has set by then stays. -/

/-- The loop of `fw_module_compile` that validates the functions, each from the block lists that it
has. It would give up at a status other than `FW_OK`, which validation never returns. -/
def fwValidateFuncs (mem : Mem) : List FwModuleFunc → Except Halt (Status × List FwModuleFunc)
  | [] => .ok (.ok, [])
  | func :: funcs =>
    match (fwModuleValidateInst mem func.body func.blks).res with
    | .error h => .error h
    | .ok (.err, blks) => .ok (.err, { func with blks := blks } :: funcs)
    | .ok (.ok, blks) =>
      match fwValidateFuncs mem funcs with
      | .error h => .error h
      | .ok (status, funcs') => .ok (status, { func with blks := blks } :: funcs')

/-- The loop of `fw_instance_funcs` over the imports: the imports with what was set in them, and the
entries of `instance->funcs` that were filled. When one cannot be resolved the entries before it
stay as they were set. -/
def fwInstanceImports (type : List FwModuleType) (imports : FwImportFuncWrap) :
    List FwModuleImport → Status × List FwModuleImport × List FwModuleFunc
  | [] => (.ok, [], [])
  | inner :: rest =>
    match fwImportFuncWrapFind imports inner.mname inner.nsname with
    | none => (.err, inner :: rest, [])
    -- the imports before this one keep what was set in them
    | some host =>
      match type[inner.typeidx.toNat]? with
      | none => (.err, inner :: rest, [])
      | some functype =>
        let f := { inner.f with hostAddr := host.ptr, functype := functype }
        let (status, rest', funcs) := fwInstanceImports type imports rest
        (status, { inner with f := f } :: rest', f :: funcs)

/-- The loop of `fw_module_compile` over the exports, of whatever kind. The index of each is
compared with the number of functions, imported ones included, and looked up among them. At the
first that is out of range compilation fails, and the exports before it stay set. -/
def fwCompileExports (bound : ℕ) (funcs : List FwModuleFunc) :
    List FwModuleExport → Status × List FwModuleExport
  | [] => (.ok, [])
  | exp :: rest =>
    if exp.idx.toNat ≥ bound then (.err, exp :: rest)
    else
      let (status, rest') := fwCompileExports bound funcs rest
      (status, { exp with func := funcs[exp.idx.toNat]? } :: rest')

/-- `fw_module_compile`: its status and the module it leaves, unless a walk does not return.
Whatever fails, `instance` is set by then and stays, so a second attempt returns `FW_ERR` at once.
`fw_instance_globals` does nothing. -/
def fwModuleCompile (mem : Mem) (module : FwModule) (imports : FwImportFuncWrap) :
    Except Halt (Status × FwModule) :=
  if module.inst.isSome then .ok (.err, module)
  else
    match fwValidateFuncs mem module.funcs with
    | .error h => .error h
    | .ok (.err, funcs) => .ok (.err, { module with funcs := funcs, inst := some [] })
    | .ok (.ok, funcs) =>
      let (status, imps, ifuncs) := fwInstanceImports module.type imports module.imports
      match status with
      | .err =>
        .ok (.err, { module with funcs := funcs, imports := imps, inst := some ifuncs })
      | .ok =>
        let bound := (funcs.length + imps.length) % 2 ^ 32
        let (status, exports) := fwCompileExports bound (ifuncs ++ funcs) module.exports
        .ok (status, { module with
          funcs := funcs, imports := imps, exports := exports, inst := some (ifuncs ++ funcs) })

/-! ## `fw_module_run`

The name comes from outside, and so do the arguments, which are C strings too. -/

/-- `fw_module_get_export_func`: the `func` field of the first export of that name. The name comes
as a `char *`, so only the bytes before its first zero are compared: an export whose name holds a
zero byte is never found. -/
def fwModuleGetExportFunc (module : FwModule) (funcname : List UInt8) :
    Option (Option FwModuleFunc) :=
  (module.exports.find? fun exp => fwStrCmpEq exp.name (cString funcname)).map (·.func)

/-- `fw_module_run` on its new context: the export is looked up, and its function is run with the
arguments. A name that is not exported is an error before anything is run. -/
def fwModuleRun (env : Env) (n : ℕ) (module : FwModule) (funcname : List UInt8)
    (args : List (List UInt8)) (rets : Bool) : Run (Status × Option UInt32) :=
  match fwModuleGetExportFunc module funcname with
  | none => pure (.err, none)
  | some none => halt (.fault .badPtr)
  | some (some func) =>
    fwModuleRunFunc { env with funcs := module.inst.getD [] } n func args rets

end FastWasm
