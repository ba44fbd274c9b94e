import FastWasm.Adequate
import FastWasm.Indices

/-!
# Compiled modules do what they mean

A module whose functions encode trees without a misplaced `else` is a program once it is compiled:
the validator has found the constructs of every tree, and the imports are host functions. A run of
any of its exports comes to what the program means (`compiled_adequate`).

This is where the validator and the executor meet. The meaning needs a block table with the
constructs of the tree, and validation leaves such a table for trees whose `else`s are in order. The
imports come first in the index space, and have no code; that they are run as host functions is due
to the pointer in them, which is the one that they were registered with.
-/

namespace FastWasm

open Logged

section

variable {mem : Mem} {func : FwModuleFunc} {code : Code}

/-- A function as the loader leaves it, whose body encodes a tree without a misplaced `else`. Its
lists of blocks are empty, and the handlers read the immediates of the tree as they are written. -/
structure Source (mem : Mem) (func : FwModuleFunc) (code : Code) : Prop where
  /-- it is not imported -/
  wasm : func.hostAddr = none
  /-- no block was met yet -/
  fresh : func.blks = .init
  /-- the tree -/
  asRead : code.AsRead
  /-- every `else` goes to its own `if` -/
  covered : code.Covered
  /-- the bytes of the tree -/
  holds : Holds mem func.body.pos code.body
  /-- and no more -/
  last : func.body.last = func.body.pos + code.body.length

/-- With the block table of its tree it can be a function of a program. -/
theorem Source.exists_encodes (h : Source mem func code) :
    ∃ blks, Encodes mem { func with blks := blks } code := by
  obtain ⟨blks, -, hfind⟩ := find_of_covered h.covered h.asRead h.holds
  exact ⟨blks, h.asRead, h.holds, h.last, hfind⟩

/-- The validator finds the constructs of the tree, so with the block table that it leaves the
function encodes the tree. -/
theorem Source.encodes (h : Source mem func code) {r : Option FwStr} {blks : FuncBlks}
    (hwalk : (fwModuleValidateWalk mem func.body func.blks).res = .ok (r, blks)) :
    Encodes mem { func with blks := blks } code := by
  obtain ⟨blks', hres, hfind⟩ := find_of_covered h.covered h.asRead h.holds
  rw [← h.last, ← h.fresh] at hres
  obtain rfl : blks' = blks := by
    have hinst := hres.symm.trans (validateInst_of_walk hwalk)
    exact (Prod.mk.inj (Except.ok.inj hinst)).2
  exact ⟨h.asRead, h.holds, h.last, hfind⟩

/-- The walk over the body returns, since every instruction of the tree is read as it is written. -/
theorem Source.returns (h : Source mem func code) : func.Returns mem := by
  obtain ⟨blks, hres, -⟩ := find_of_covered h.covered h.asRead h.holds
  rw [← h.last, ← h.fresh] at hres
  refine validateFuncs_ok_iff.mp ⟨[{ func with blks := blks }], ?_⟩ func (List.mem_singleton_self _)
  rw [fwValidateFuncs]
  simp only [hres]
  rfl

/-- The validator finds the constructs of all trees of a module. -/
theorem encodes_of_validateFuncs {funcs funcs' : List FwModuleFunc} {codes : List Code}
    (h : List.Forall₂ (Source mem) funcs codes)
    (hv : fwValidateFuncs mem funcs = .ok (.ok, funcs')) :
    List.Forall₂ (Encodes mem) funcs' codes := by
  induction h generalizing funcs' with
  | nil =>
    obtain ⟨-, rfl⟩ := Prod.mk.inj (Except.ok.inj hv)
    exact .nil
  | cons hfunc _ ih =>
    obtain ⟨r, blks, rest, hwalk, hrest, rfl⟩ := validateFuncs_cons.mp hv
    exact .cons (hfunc.encodes hwalk) (ih hrest)

/-- Functions and their trees, put together, are a program. -/
theorem exists_coded {funcs : List FwModuleFunc} {codes : List Code}
    (h : List.Forall₂ (fun func code => func.hostAddr = none → Encodes mem func code) funcs codes) :
    ∃ prog : List (Coded mem), prog.map Coded.func = funcs ∧ prog.map Coded.code = codes := by
  induction h with
  | nil => exact ⟨[], rfl, rfl⟩
  | @cons func code _ _ hfunc _ ih =>
    obtain ⟨prog, rfl, rfl⟩ := ih
    exact ⟨⟨func, code, hfunc⟩ :: prog, rfl, rfl⟩

end

section

variable {env : Env} {calls : List AddFunc} {module module' : FwModule} {codes : List Code}

/-- The imports of a compiled module are host functions, unless one was registered at `NULL`. -/
theorem host_of_resolves (hcalls : ∀ c ∈ calls, c.faddr ≠ none) {imp : FwModuleImport}
    {f : FwModuleFunc} (h : imp.ResolvesTo module.type (fwImportFuncs calls) f) :
    f.hostAddr ≠ none := by
  obtain ⟨host, functype, hfind, -, rfl⟩ := h
  obtain ⟨c, ⟨pre, post, rfl, -, -⟩, rfl⟩ := find_eq_some.mp hfind
  exact hcalls c (by simp)

/-- A compiled module as a program: the imports in front, as host functions, and the functions
behind them. -/
theorem exists_program (hcalls : ∀ c ∈ calls, c.faddr ≠ none)
    (hcompile : fwModuleCompile env.mem module (fwImportFuncs calls) = .ok (.ok, module'))
    (hfuncs : List.Forall₂ (Source env.mem) module.funcs codes) :
    ∃ prog : List (Coded env.mem), prog.map Coded.func = module'.inst.getD [] ∧
      prog.map Coded.code = List.replicate module.imports.length .nil ++ codes := by
  obtain ⟨ifuncs, hv, hi, -, hinst⟩ := loops_of_compile hcompile
  obtain ⟨-, hall⟩ := forall₂_instanceImports hi
  rw [hinst, Option.getD_some]
  have hdefined : List.Forall₂ (fun func code => func.hostAddr = none → Encodes env.mem func code)
      module'.funcs codes :=
    (encodes_of_validateFuncs hfuncs hv).imp fun func _ h (_ : func.hostAddr = none) => h
  have himported : List.Forall₂ (fun func code => func.hostAddr = none → Encodes env.mem func code)
      ifuncs (List.replicate module.imports.length .nil) := by
    refine List.forall₂_iff_get.mpr
      ⟨by rw [List.length_replicate, hall.length_eq], fun i hi _ hnone => ?_⟩
    have hlt : i < module.imports.length := hall.length_eq.symm ▸ hi
    exact absurd hnone (host_of_resolves hcalls (hall.get hlt hi))
  exact exists_coded (List.rel_append himported hdefined)

/-- Every export of a compiled module is a function of the program, and a run of it comes to what
the program means: it ends in the same way, after the same events but for the fetches of opcodes,
and when it ends with so many steps the program has a meaning with as many nested calls.

The module is one that compiles with the host functions that `calls` register (`hcompile`), none of
them at `NULL` (`hcalls`), because an import with that pointer would be run as a wasm function. Its
functions are the encodings of the trees `codes` (`hfuncs`, see `Source`). Where the meaning stops
with `stray`, at a `return` that leaves for the end of another function, nothing is said about the
rest of the run. -/
theorem compiled_adequate (hcalls : ∀ c ∈ calls, c.faddr ≠ none)
    (hcompile : fwModuleCompile env.mem module (fwImportFuncs calls) = .ok (.ok, module'))
    (hfuncs : List.Forall₂ (Source env.mem) module.funcs codes) :
    ∃ prog : List (Coded env.mem), prog.map Coded.func = module'.inst.getD [] ∧
      prog.map Coded.code = List.replicate module.imports.length .nil ++ codes ∧
      ∀ funcname func, fwModuleGetExportFunc module' funcname = some (some func) →
        ∃ f ∈ prog, f.func = func ∧ ∀ depth args rets s, Realizes (depth + 1) s
          (f.runDenote { env with funcs := module'.inst.getD [] } prog depth args rets)
          fun n => fwModuleRun env n module' funcname args rets := by
  obtain ⟨prog, hprog, hcodes⟩ := exists_program hcalls hcompile hfuncs
  refine ⟨prog, hprog, hcodes, fun funcname func hexport => ?_⟩
  have hmem := export_mem_inst hcompile hexport
  rw [← hprog] at hmem
  obtain ⟨f, hf, rfl⟩ := List.mem_map.mp hmem
  refine ⟨f, hf, rfl, fun depth args rets s => ?_⟩
  refine (@run_adequate { env with funcs := module'.inst.getD [] } _ hprog.symm depth f args rets
    s).congr fun n => ?_
  rw [fwModuleRun, hexport]

end

/-! ### A module with a call

Two functions, of which the first calls the second. -/

/-- A function that calls the other one, which has a block and pushes 7. -/
def callsBlockCodes : List Code :=
  [.instr 0x10 [0x01] .nil, .block false [0x40] .nil (.instr 0x41 [0x07] .nil)]

/-- Their bytes. -/
def callsBlockEnv : Env := zeroEnv (memOf (callsBlockCodes.flatMap Code.body)) []

/-- A module with the two functions, which exports the first one. -/
def callsBlock : FwModule :=
  ⟨[], [], [⟨1, ⟨0, 0, []⟩, ⟨0, 3⟩, none, .init⟩, ⟨1, ⟨0, 0, []⟩, ⟨3, 9⟩, none, .init⟩],
    [⟨[0x66], 0, 0, none⟩], none⟩

theorem callsBlock_asRead : ∀ code ∈ callsBlockCodes, code.AsRead ∧ code.Covered := by
  have hcall : (Code.instr 0x10 [0x01] .nil).AsRead :=
    ⟨⟨_, .c32, rfl, rfl, (by decide : Leb128.Encoding 5 [0x01])⟩, trivial⟩
  have hblock : (Code.block false [0x40] .nil (.instr 0x41 [0x07] .nil)).AsRead :=
    ⟨by decide, trivial, ⟨_, .c32, rfl, rfl, (by decide : Leb128.Encoding 5 [0x07])⟩, trivial⟩
  simp only [callsBlockCodes, List.forall_mem_cons]
  exact ⟨⟨hcall, by decide⟩, ⟨hblock, by decide⟩, List.forall_mem_nil _⟩

theorem callsBlock_source :
    List.Forall₂ (Source callsBlockEnv.mem) callsBlock.funcs callsBlockCodes := by
  obtain ⟨⟨hcall, hcov⟩, hrest⟩ := List.forall_mem_cons.mp callsBlock_asRead
  obtain ⟨hblock, hcov'⟩ := List.forall_mem_singleton.mp hrest
  exact .cons ⟨rfl, rfl, hcall, hcov, ⟨rfl, rfl, rfl, trivial⟩, rfl⟩
    (.cons ⟨rfl, rfl, hblock, hcov', ⟨rfl, rfl, rfl, rfl, rfl, rfl, trivial⟩, rfl⟩ .nil)

/-- It is a program when it is compiled, and a run of its export comes to what that means. -/
theorem callsBlock_adequate :
    ∃ module' func, fwModuleCompile callsBlockEnv.mem callsBlock (fwImportFuncs []) =
        .ok (.ok, module') ∧ fwModuleGetExportFunc module' [0x66] = some (some func) ∧
      ∃ prog : List (Coded callsBlockEnv.mem), prog.map Coded.code = callsBlockCodes ∧
        ∃ f ∈ prog, f.func = func ∧ ∀ depth args rets s, Realizes (depth + 1) s
          (f.runDenote { callsBlockEnv with funcs := module'.inst.getD [] } prog depth args rets)
          fun n => fwModuleRun callsBlockEnv n module' [0x66] args rets := by
  obtain ⟨module', func, hcompile, hexport⟩ : ∃ module' func,
      fwModuleCompile callsBlockEnv.mem callsBlock (fwImportFuncs []) = .ok (.ok, module') ∧
        fwModuleGetExportFunc module' [0x66] = some (some func) := ⟨_, _, rfl, rfl⟩
  obtain ⟨prog, -, hcodes, hexports⟩ :=
    compiled_adequate (List.forall_mem_nil _) hcompile callsBlock_source
  exact ⟨module', func, hcompile, hexport, prog, hcodes, hexports _ _ hexport⟩

end FastWasm
