import FastWasm.Compile
import FastWasm.Format
import FastWasm.Scan

/-!
# What compilation says about a module

`fw_module_validate_inst` returns `FW_OK` on every way out, so the verdict of `fw_module_compile` is
not about the bodies at all. It depends on the imports and exports, and on whether the walks return
(`compile_ok_iff`): a walk is stopped by an opcode below `FW_INSTR_MAX` without a handler, by a
number that has no end, or by lists that an `else` without an `if` has damaged. When one of them is
stopped the compilation does not return a verdict, and in the model it halts with the reason of the
first walk that stops (`compile_eq_error`).

So a verdict of `FW_OK` is worth what the bodies happen to be. `compile_sound_iff` says when they
are in the binary format, from what the handlers read in them: the instructions that the walk went
over must be those of the format, in order, up to exactly the last byte. A handler that misreads an
immediate (a constant of raw bytes, a `call_indirect`, a `load`) may go on in the middle of an
instruction, and what it reads there says nothing about the body; such a body is measured by the
format itself.

The walk is looked at through its scan, which keeps the position and the lengths of the block lists
and forgets their entries. That is all that decides whether a walk returns, and where.
-/

namespace FastWasm

open Logged

/-! ## Walks that return

The verdict needs all walks to return, and a walk returns when its scan does. -/

/-- The outcome of the walk over the body of a function, which depends on the bytes and on the
lengths of the block lists. It is where the walk ends, or why it is stopped. -/
def FwModuleFunc.scan (mem : Mem) (func : FwModuleFunc) : Except Halt FwStr :=
  scanLoop mem (func.body.last - func.body.pos + 1) func.body func.blks.lens

/-- The walk over the body returns. Wherever it has come to by then, the status is `FW_OK`. -/
def FwModuleFunc.Returns (mem : Mem) (func : FwModuleFunc) : Prop :=
  ∃ stop, func.scan mem = .ok stop

/-- Why the first walk that does not return stops. The bodies are validated in their order, and none
behind that one is looked at. -/
def firstHalt (mem : Mem) : List FwModuleFunc → Option Halt
  | [] => none
  | func :: funcs =>
    match func.scan mem with
    | .error h => some h
    | .ok _ => firstHalt mem funcs

theorem firstHalt_eq_none {mem : Mem} {funcs : List FwModuleFunc} :
    firstHalt mem funcs = none ↔ ∀ func ∈ funcs, func.Returns mem := by
  induction funcs with
  | nil => exact iff_of_true rfl fun _ h => by cases h
  | cons func funcs ih =>
    rw [firstHalt, List.forall_mem_cons, ← ih, FwModuleFunc.Returns]
    cases func.scan mem with
    | error h => exact iff_of_false nofun (by rintro ⟨⟨_, h⟩, -⟩; cases h)
    | ok stop => exact ⟨fun h => ⟨⟨stop, rfl⟩, h⟩, fun h => h.2⟩

/-! ## Functions and imports

The three loops of compilation, each with the condition on which it goes to its end. -/

/-- The import is registered and its type exists. The two names are looked up in the registry, and
nothing compares the type with that of the registered function. -/
def FwModuleImport.Resolves (type : List FwModuleType) (imports : FwImportFuncWrap)
    (imp : FwModuleImport) : Prop :=
  (fwImportFuncWrapFind imports imp.mname imp.nsname).isSome ∧ imp.typeidx.toNat < type.length

/-- The number of functions of a module, as the `uint32_t` that an export is compared with. Imported
functions count too. -/
def FwModule.funcBound (module : FwModule) : ℕ :=
  (module.funcs.length + module.imports.length) % 2 ^ 32

section Compile

variable {mem : Mem} {module : FwModule} {imports : FwImportFuncWrap}

/-- A round of the loop over the functions: the function is walked, and the others follow. -/
theorem validateFuncs_cons {func : FwModuleFunc} {funcs funcs' : List FwModuleFunc}
    {status : Status} :
    fwValidateFuncs mem (func :: funcs) = .ok (status, funcs') ↔
      ∃ r blks rest, (fwModuleValidateWalk mem func.body func.blks).res = .ok (r, blks) ∧
        fwValidateFuncs mem funcs = .ok (status, rest) ∧
        funcs' = { func with blks := blks } :: rest := by
  rw [fwValidateFuncs]
  rcases hw : (fwModuleValidateWalk mem func.body func.blks).res with e | ⟨r, blks⟩
  · rw [validateInst_of_walk_error hw]
    exact iff_of_false (fun h => by cases h) (by rintro ⟨_, _, _, h, -⟩; cases h)
  · rw [validateInst_of_walk hw]
    rcases hv : fwValidateFuncs mem funcs with e | ⟨status', rest⟩
    · exact iff_of_false (fun h => by cases h) (by rintro ⟨_, _, _, -, h, -⟩; cases h)
    · refine ⟨fun h => ?_, ?_⟩
      · obtain ⟨rfl, rfl⟩ := Prod.mk.inj (Except.ok.inj h)
        exact ⟨r, blks, rest, rfl, rfl, rfl⟩
      · rintro ⟨_, _, _, hblks, hrest, rfl⟩
        obtain ⟨-, rfl⟩ := Prod.mk.inj (Except.ok.inj hblks)
        obtain ⟨rfl, rfl⟩ := Prod.mk.inj (Except.ok.inj hrest)
        rfl

/-- The walk over a body returns or stops as the scan of it does. -/
theorem walk_cases (mem : Mem) (func : FwModuleFunc) :
    (∃ stop blks, func.scan mem = .ok stop ∧
      (fwModuleValidateWalk mem func.body func.blks).res = .ok (some stop, blks)) ∨
    ∃ h, func.scan mem = .error h ∧
      (fwModuleValidateWalk mem func.body func.blks).res = .error h := by
  have hscan := @loop_scan mem (func.body.last - func.body.pos + 1) func.body func.blks
  rw [FwModuleFunc.scan, fwModuleValidateWalk]
  generalize scanLoop mem (func.body.last - func.body.pos + 1) func.body func.blks.lens = scan at *
  rcases hw : (fwModuleValidateLoop mem (func.body.last - func.body.pos + 1) func.body
    func.blks).res with h | ⟨r, blks⟩ <;> rcases scan with h' | stop <;>
    simp only [hw, Except.map, Except.error.injEq, Except.ok.injEq, reduceCtorEq] at hscan
  · exact .inr ⟨h', rfl, by rw [hscan]⟩
  · exact .inl ⟨stop, blks, rfl, by rw [hscan]⟩

/-- The loop over the functions goes over all of them, or stops at the first one whose walk does not
return. -/
theorem validateFuncs_cases (mem : Mem) (funcs : List FwModuleFunc) :
    (firstHalt mem funcs = none ∧ ∃ funcs', fwValidateFuncs mem funcs = .ok (.ok, funcs')) ∨
    ∃ h, firstHalt mem funcs = some h ∧ fwValidateFuncs mem funcs = .error h := by
  induction funcs with
  | nil => exact .inl ⟨rfl, [], rfl⟩
  | cons func funcs ih =>
    rw [firstHalt, fwValidateFuncs]
    rcases walk_cases mem func with ⟨stop, blks, hscan, hw⟩ | ⟨h, hscan, hw⟩
    · rw [hscan, validateInst_of_walk hw]
      rcases ih with ⟨hnone, funcs', hv⟩ | ⟨h, hsome, hv⟩
      · rw [hv]
        exact .inl ⟨hnone, _, rfl⟩
      · rw [hv]
        exact .inr ⟨h, hsome, rfl⟩
    · rw [hscan, validateInst_of_walk_error hw]
      exact .inr ⟨h, rfl, rfl⟩

/-- The loop over the functions only ever ends with `FW_OK`. -/
theorem validateFuncs_ok_iff {funcs : List FwModuleFunc} :
    (∃ funcs', fwValidateFuncs mem funcs = .ok (.ok, funcs')) ↔
      ∀ func ∈ funcs, func.Returns mem := by
  rw [← firstHalt_eq_none]
  rcases validateFuncs_cases mem funcs with ⟨hnone, funcs', hv⟩ | ⟨h, hsome, hv⟩
  · exact iff_of_true ⟨funcs', hv⟩ hnone
  · rw [hsome, hv]
    exact iff_of_false (by rintro ⟨_, h⟩; cases h) nofun

/-- The loop over the functions keeps their number and never ends with `FW_ERR`. -/
theorem validateFuncs_eq_ok :
    ∀ {funcs funcs' : List FwModuleFunc} {status : Status},
      fwValidateFuncs mem funcs = .ok (status, funcs') →
      status = .ok ∧ funcs'.length = funcs.length
  | [], _, _, h => by
    obtain ⟨rfl, rfl⟩ := Prod.mk.inj (Except.ok.inj h)
    exact ⟨rfl, rfl⟩
  | func :: funcs, funcs', status, h => by
    obtain ⟨_, _, rest, -, hv, rfl⟩ := validateFuncs_cons.mp h
    obtain ⟨hstatus, hlen⟩ := validateFuncs_eq_ok hv
    exact ⟨hstatus, by rw [List.length_cons, List.length_cons, hlen]⟩

/-- The imports are resolved one by one, up to the first that is not registered or has no type. -/
theorem instanceImports_ok_iff {type : List FwModuleType} {imps : List FwModuleImport} :
    (fwInstanceImports type imports imps).1 = .ok ↔ ∀ imp ∈ imps, imp.Resolves type imports := by
  induction imps with
  | nil => exact iff_of_true rfl fun _ h => by cases h
  | cons imp imps ih =>
    rw [List.forall_mem_cons, ← ih, fwInstanceImports, FwModuleImport.Resolves]
    cases hf : fwImportFuncWrapFind imports imp.mname imp.nsname with
    | none => exact iff_of_false (by simp) (by simp)
    | some host =>
      cases ht : type[imp.typeidx.toNat]? with
      | none =>
        have hlen := List.getElem?_eq_none_iff.mp ht
        refine iff_of_false (by simp) fun h => ?_
        have := h.1.2
        omega
      | some functype =>
        have hlen := (List.getElem?_eq_some_iff.mp ht).1
        simp [hlen]

theorem instanceImports_length (type : List FwModuleType) (imps : List FwModuleImport) :
    (fwInstanceImports type imports imps).2.1.length = imps.length := by
  induction imps with
  | nil => rfl
  | cons imp imps ih =>
    rw [fwInstanceImports]
    cases fwImportFuncWrapFind imports imp.mname imp.nsname with
    | none => rfl
    | some host =>
      cases type[imp.typeidx.toNat]? with
      | none => rfl
      | some functype => simp only [List.length_cons, ih]

/-- The exports are compared with the number of functions, whatever it is that they export: a memory
or a table is looked up among the functions as well. -/
theorem compileExports_ok_iff (funcs : List FwModuleFunc) {bound : ℕ}
    {exports : List FwModuleExport} :
    (fwCompileExports bound funcs exports).1 = .ok ↔ ∀ exp ∈ exports, exp.idx.toNat < bound := by
  induction exports with
  | nil => exact iff_of_true rfl fun _ h => by cases h
  | cons exp exports ih =>
    rw [List.forall_mem_cons, ← ih, fwCompileExports]
    by_cases h : exp.idx.toNat ≥ bound
    · rw [if_pos h]
      exact iff_of_false (by simp) fun h' => absurd h'.1 (Nat.not_lt.mpr h)
    · rw [if_neg h]
      simp [Nat.lt_of_not_le h]

/-- When a module compiles: it is not compiled yet, the walks return, the imports resolve and the
indices of the exports are in range. A body that is not in the format is no obstacle. -/
theorem compile_ok_iff :
    (∃ module', fwModuleCompile mem module imports = .ok (.ok, module')) ↔
      module.inst = none ∧ (∀ func ∈ module.funcs, func.Returns mem) ∧
        (∀ imp ∈ module.imports, imp.Resolves module.type imports) ∧
        ∀ exp ∈ module.exports, exp.idx.toNat < module.funcBound := by
  rw [← validateFuncs_ok_iff, ← instanceImports_ok_iff, fwModuleCompile]
  cases hi : module.inst with
  | none =>
    rw [Option.isSome_none, if_neg Bool.false_ne_true]
    rcases hv : fwValidateFuncs mem module.funcs with e | ⟨status, funcs⟩
    · exact iff_of_false (by rintro ⟨_, h⟩; cases h) (by rintro ⟨-, ⟨_, h⟩, -⟩; cases h)
    · obtain ⟨rfl, hlen⟩ := validateFuncs_eq_ok hv
      have hlen' : (fwInstanceImports module.type imports module.imports).2.1.length =
          module.imports.length := instanceImports_length module.type module.imports
      simp only
      rcases hs : fwInstanceImports module.type imports module.imports with ⟨_ | _, imps, ifuncs⟩
      · apply iff_of_false (by rintro ⟨_, h⟩; cases h)
        rintro ⟨-, -, h, -⟩
        cases h
      · rw [hs] at hlen'
        have hbound : (funcs.length + imps.length) % 2 ^ 32 = module.funcBound := by
          rw [FwModule.funcBound, hlen, ← hlen']
        simp only [hbound]
        rw [← compileExports_ok_iff (ifuncs ++ funcs)]
        refine ⟨?_, ?_⟩
        · rintro ⟨_, h⟩
          obtain ⟨hstatus, -⟩ := Prod.mk.inj (Except.ok.inj h)
          exact ⟨trivial, ⟨_, rfl⟩, trivial, hstatus⟩
        · rintro ⟨-, -, -, hstatus⟩
          exact ⟨_, by rw [hstatus]⟩
  | some funcs => exact iff_of_false (by rintro ⟨_, h⟩; cases h) (by rintro ⟨h, -⟩; cases h)

/-- Why a module does not compile at all. The walks come first, so an import that is not registered
does not keep a walk from being stopped. -/
theorem compile_eq_error {h : Halt} :
    fwModuleCompile mem module imports = .error h ↔
      module.inst = none ∧ firstHalt mem module.funcs = some h := by
  rw [fwModuleCompile]
  cases hi : module.inst with
  | some funcs => exact iff_of_false nofun nofun
  | none =>
    rw [Option.isSome_none, if_neg Bool.false_ne_true]
    rcases validateFuncs_cases mem module.funcs with ⟨hnone, funcs', hv⟩ | ⟨h', hsome, hv⟩
    · rw [hv, hnone]
      refine iff_of_false ?_ nofun
      rcases fwInstanceImports module.type imports module.imports with ⟨_ | _, imps, ifuncs⟩
      · exact nofun
      · exact nofun
    · rw [hv, hsome, Except.error.injEq, Option.some.injEq, and_iff_right rfl]

end Compile

/-! ## What the handlers read

A list of instructions with the bytes that were read for each. It is a reading of the body, and need
not be the one that the format gives. -/

/-- The instructions that the walk goes over, each with the bytes up to where the walk goes on,
and where it ends; `none` when it does not. It is what the handlers take the body for. -/
def readInstrs (mem : Mem) : ℕ → FwStr → Option (List WasmInstr × FwStr)
  | 0, _ => none
  | n + 1, body =>
    if body.pos < body.last then
      (instrNext mem body).bind fun next =>
        (readInstrs mem n next).map fun (is, stop) =>
          (⟨mem body.pos, bytesAt mem (body.pos + 1) (next.pos - (body.pos + 1))⟩ :: is, stop)
    else some ([], body)

/-- The instructions of which a handler reads other immediates than the format gives them: a LEB128
number in place of raw bytes, or one number in place of two. -/
def Misread (op : UInt8) : Prop :=
  op = fwInstrI32Load ∨ op = fwInstrCallIndirect ∨ op = fwInstrF32Const ∨ op = fwInstrF64Const

instance (op : UInt8) : Decidable (Misread op) := inferInstanceAs (Decidable (_ ∨ _ ∨ _ ∨ _))

/-- What the handlers read in a body is a body of the format: it ends exactly at the last byte,
every instruction is one of the format, and the blocks are in order. A body in which they read an
instruction that they misread is measured by the format itself, for what they read behind it has
nothing to do with it. -/
def FwModuleFunc.ReadsWell (mem : Mem) (func : FwModuleFunc) : Prop :=
  ∃ is stop, readInstrs mem (func.body.last - func.body.pos + 1) func.body = some (is, stop) ∧
    if ∃ i ∈ is, Misread i.op then func.body.WellFormed mem
    else stop.pos = func.body.last ∧ (∀ i ∈ is, i.Valid) ∧ Nested [] is

section Reads

variable {mem : Mem} {n last : ℕ} {body next stop : FwStr} {is js : List WasmInstr}

/-- A round that returns goes to the next instruction. -/
theorem instrNext_of_scanStep {k k' : ListLens} (h : scanStep mem body k = .ok (next, k')) :
    instrNext mem body = some next := by
  rw [scanStep] at h
  rw [instrNext]
  cases hi : fwGetInstr (mem body.pos) with
  | none =>
    simp only [hi, Except.ok.injEq, Prod.mk.injEq] at h
    rw [h.1]
  | some instr =>
    cases hc : instr.consume with
    | none => simp [hi, hc] at h
    | some fn =>
      simp only [hi, hc] at h
      simp only [hc, Option.bind_some, scan_next h]

/-- A walk that returns has read instructions up to where it ends. The converse fails, since an
`else` may stop a walk whose immediates are all read. -/
theorem exists_readInstrs :
    ∀ {n : ℕ} {body : FwStr} {k : ListLens}, scanLoop mem n body k = .ok stop →
      ∃ is, readInstrs mem n body = some (is, stop)
  | 0, _, _, h => by cases h
  | n + 1, body, k, h => by
    rw [scanLoop] at h
    rw [readInstrs]
    by_cases hlt : body.pos < body.last
    · rw [if_pos hlt] at h ⊢
      rcases hs : scanStep mem body k with e | ⟨body', k'⟩ <;> simp only [hs] at h
      · cases h
      · obtain ⟨is, his⟩ := exists_readInstrs h
        rw [instrNext_of_scanStep hs, Option.bind_some, his]
        exact ⟨_, rfl⟩
    · rw [if_neg hlt] at h ⊢
      exact ⟨[], by rw [Except.ok.inj h]⟩

/-- What was read are the bytes of the body, from its start to where the walk has ended. -/
theorem holds_readInstrs :
    ∀ {n : ℕ} {body stop : FwStr} {is : List WasmInstr}, readInstrs mem n body = some (is, stop) →
      Holds mem body.pos (encodeInstrs is) ∧ stop.pos = body.pos + (encodeInstrs is).length
  | 0, _, _, _, h => by cases h
  | n + 1, body, stop, is, h => by
    rw [readInstrs] at h
    by_cases hlt : body.pos < body.last
    · rw [if_pos hlt] at h
      obtain ⟨next, hnext, h⟩ := Option.bind_eq_some_iff.mp h
      obtain ⟨⟨is', stop'⟩, hrest, heq⟩ := Option.map_eq_some_iff.mp h
      obtain ⟨rfl, rfl⟩ := Prod.mk.inj heq
      obtain ⟨hholds, hstop⟩ := holds_readInstrs hrest
      have hpos := (instrNext_lt hnext).1
      have hend : body.pos + 1 + (next.pos - (body.pos + 1)) = next.pos := by omega
      rw [encodeInstrs, holds_cons, holds_append, length_bytesAt, hend, List.length_cons,
        List.length_append, length_bytesAt]
      exact ⟨⟨rfl, holds_bytesAt .., hholds⟩, by omega⟩
    · rw [if_neg hlt] at h
      obtain ⟨rfl, rfl⟩ := Prod.mk.inj (Option.some.inj h)
      exact ⟨trivial, rfl⟩

/-- A sequence of the format is what the handlers read, if they misread nothing in what they read.
It is by induction on the sequence: both start at the same byte, and where the handler reads what is
written both go on at the same byte. -/
theorem readInstrs_unique :
    ∀ {js : List WasmInstr} {p n : ℕ} {is : List WasmInstr} {stop : FwStr}, (∀ j ∈ js, j.Valid) →
      Holds mem p (encodeInstrs js) → p + (encodeInstrs js).length = last →
      readInstrs mem n ⟨p, last⟩ = some (is, stop) → (∀ i ∈ is, ¬ Misread i.op) →
      is = js ∧ stop.pos = last
  | _, _, 0, _, _, _, _, _, h, _ => by cases h
  | [], p, n + 1, is, stop, _, _, hlast, h, _ => by
    rw [encodeInstrs, List.length_nil, Nat.add_zero] at hlast
    rw [readInstrs, if_neg (by simp only; omega)] at h
    obtain ⟨rfl, rfl⟩ := Prod.mk.inj (Option.some.inj h)
    exact ⟨rfl, hlast⟩
  | j :: js, p, n + 1, is, stop, hv, hm, hlast, h, hclear => by
    rw [encodeInstrs, holds_cons, holds_append] at hm
    rw [encodeInstrs, List.length_cons, List.length_append] at hlast
    rw [readInstrs, if_pos (by simp only; omega)] at h
    obtain ⟨next, hnext, h⟩ := Option.bind_eq_some_iff.mp h
    obtain ⟨⟨is', stop'⟩, hrest, heq⟩ := Option.map_eq_some_iff.mp h
    obtain ⟨rfl, rfl⟩ := Prod.mk.inj heq
    obtain ⟨hfirst, hclears⟩ := List.forall_mem_cons.mp hclear
    -- the handler reads this instruction as it is written, so the walk goes on behind it
    obtain ⟨kind, hk, he⟩ := hv j List.mem_cons_self
    rw [hm.1] at hfirst
    have hi : fwGetInstr (mem p) = some (commonInstrHandler j.op) := by
      rw [hm.1]
      exact getInstr_of_kind hk
    obtain ⟨fn, hc⟩ : ∃ fn, (commonInstrHandler j.op).consume = some fn := by
      rw [instrNext, hi] at hnext
      obtain ⟨fn, hc, -⟩ := Option.bind_eq_some_iff.mp hnext
      exact ⟨fn, hc⟩
    simp only [Misread, not_or] at hfirst
    have hread : j.ReadAsWritten := ⟨by rw [hc]; rfl, hfirst.1, hfirst.2.1, fun h =>
      absurd h (not_or.mpr hfirst.2.2)⟩
    have hlast' : p + 1 + j.imm.length ≤ last := by omega
    rw [instrNext_of_row hi hc, (next_iff hk he hc hm.2.1 hlast').mpr hread] at hnext
    obtain rfl := Option.some.inj hnext
    obtain ⟨rfl, hstop⟩ := readInstrs_unique (fun i hi => hv i (List.mem_cons_of_mem _ hi)) hm.2.2
      (by omega) hrest hclears
    refine ⟨?_, hstop⟩
    have himm : bytesAt mem (p + 1) (p + 1 + j.imm.length - (p + 1)) = j.imm := by
      rw [Nat.add_sub_cancel_left]
      exact bytesAt_of_holds hm.2.1
    simp only [himm, hm.1]

/-- A body whose walk returns is in the format if and only if what the handlers read in it is. -/
theorem readsWell_iff {func : FwModuleFunc} (h : func.Returns mem) :
    func.ReadsWell mem ↔ func.body.WellFormed mem := by
  obtain ⟨stop, hscan⟩ := h
  obtain ⟨is, his⟩ := exists_readInstrs hscan
  have hall : func.ReadsWell mem ↔ if ∃ i ∈ is, Misread i.op then func.body.WellFormed mem
      else stop.pos = func.body.last ∧ (∀ i ∈ is, i.Valid) ∧ Nested [] is := by
    refine ⟨?_, fun h => ⟨is, stop, his, h⟩⟩
    rintro ⟨is', stop', his', h⟩
    obtain ⟨rfl, rfl⟩ := Prod.mk.inj (Option.some.inj (his.symm.trans his'))
    exact h
  rw [hall]
  split_ifs with hmis
  · exact Iff.rfl
  · push Not at hmis
    refine ⟨?_, ?_⟩
    · rintro ⟨hstop, hv, hnested⟩
      obtain ⟨hholds, hpos⟩ := holds_readInstrs his
      exact ⟨is, hv, hnested, hholds, hstop.symm.trans hpos⟩
    · rintro ⟨js, hv, hnested, hholds, hlast⟩
      obtain ⟨rfl, hstop⟩ := readInstrs_unique hv hholds hlast.symm his hmis
      exact ⟨hstop, hv, hnested⟩

end Reads

/-! ## The verdict

Compilation with `FW_OK` says that nothing stopped it. What it says about the bodies is what they
would have been without it. -/

/-- Compilation with `FW_OK` vouches for the bodies of the module, and no handler writes over them.
-/
structure CompileSound (mem : Mem) (module : FwModule) (imports : FwImportFuncWrap) : Prop where
  /-- the bodies are in the binary format -/
  vouches : (∃ module', fwModuleCompile mem module imports = .ok (.ok, module')) →
    ∀ func ∈ module.funcs, func.body.WellFormed mem
  /-- the bodies stay what they are -/
  intact : fwModuleCompile mem module imports ≠ .error (.fault .overBytes)

/-- Compilation returns `FW_OK` if and only if the module is not compiled yet, every walk returns,
every import is registered and has a type, and every export has an index in range. It vouches for
the bodies if and only if there is nothing to object to in what the handlers read, or one of these
things is in its way. A walk that stops is in its way for good, except one in which the `end` of a
block has stored an address over the bytes behind an `else`: what comes of that depends on the
address. -/
theorem compile_sound_iff (mem : Mem) (module : FwModule) (imports : FwImportFuncWrap) :
    ((∃ module', fwModuleCompile mem module imports = .ok (.ok, module')) ↔
      module.inst = none ∧ firstHalt mem module.funcs = none ∧
        (∀ imp ∈ module.imports, imp.Resolves module.type imports) ∧
        ∀ exp ∈ module.exports, exp.idx.toNat < module.funcBound) ∧
    (CompileSound mem module imports ↔ module.inst ≠ none ∨
      (∃ h, firstHalt mem module.funcs = some h ∧ h ≠ .fault .overBytes) ∨
      firstHalt mem module.funcs = none ∧
        ((∃ imp ∈ module.imports, ¬ imp.Resolves module.type imports) ∨
          (∃ exp ∈ module.exports, ¬ exp.idx.toNat < module.funcBound) ∨
          ∀ func ∈ module.funcs, func.ReadsWell mem)) := by
  have hok := @compile_ok_iff mem module imports
  rw [← firstHalt_eq_none] at hok
  refine ⟨hok, ?_⟩
  by_cases hinst : module.inst = none
  swap
  · refine iff_of_true ⟨fun h => absurd (hok.mp h).1 hinst, fun h => ?_⟩ (.inl hinst)
    exact hinst (compile_eq_error.mp h).1
  cases hfirst : firstHalt mem module.funcs with
  | some h =>
    have hnot : ¬ ∃ module', fwModuleCompile mem module imports = .ok (.ok, module') := by
      rw [hok, hfirst]
      rintro ⟨-, h, -⟩
      cases h
    have herr : fwModuleCompile mem module imports = .error h :=
      compile_eq_error.mpr ⟨hinst, hfirst⟩
    refine ⟨fun ⟨_, hintact⟩ => .inr (.inl ⟨h, rfl, fun hh => hintact (hh ▸ herr)⟩), ?_⟩
    rintro (hne | ⟨h', heq, hne⟩ | ⟨hnone, -⟩)
    · exact absurd hinst hne
    · obtain rfl := Option.some.inj heq
      refine ⟨fun h => absurd h hnot, fun h' => hne ?_⟩
      exact Except.error.inj (herr.symm.trans h')
    · cases hnone
  | none =>
    have hreturns := firstHalt_eq_none.mp hfirst
    have hintact : fwModuleCompile mem module imports ≠ .error (.fault .overBytes) := by
      intro h
      rw [compile_eq_error, hfirst] at h
      cases h.2
    have hreads : (∀ func ∈ module.funcs, func.ReadsWell mem) ↔
        ∀ func ∈ module.funcs, func.body.WellFormed mem :=
      forall₂_congr fun func hfunc => readsWell_iff (hreturns func hfunc)
    rw [hreads]
    refine ⟨fun ⟨hvouches, _⟩ => .inr (.inr ⟨rfl, ?_⟩), ?_⟩
    · by_contra hc
      push Not at hc
      obtain ⟨himports, hexports, func, hfunc, hbad⟩ := hc
      exact hbad (hvouches (hok.mpr ⟨hinst, hfirst, himports, hexports⟩) func hfunc)
    · rintro (hne | ⟨h, heq, -⟩ | ⟨-, hcases⟩)
      · exact absurd hinst hne
      · cases heq
      · refine ⟨fun h => ?_, hintact⟩
        obtain ⟨-, -, himports, hexports⟩ := hok.mp h
        rcases hcases with ⟨imp, himp, hbad⟩ | ⟨exp, hexp, hbad⟩ | hwf
        · exact absurd (himports imp himp) hbad
        · exact absurd (hexports exp hexp) hbad
        · exact hwf

/-- A function whose only byte is an unknown opcode, `0xff`. -/
def unknownOpcode : FwModuleFunc := ⟨0, ⟨0, 0, []⟩, ⟨0, 1⟩, none, .init⟩

/-- A module with an unknown opcode for a body compiles. The walk passes over an opcode from
`FW_INSTR_MAX` on, and ends at the end of the body like any other. -/
theorem unknownOpcode_compiles :
    ¬ CompileSound (memOf [0xff]) ⟨[], [], [unknownOpcode], [], none⟩ (fun _ => []) := by
  intro h
  obtain ⟨is, hv, -, hm, hlast⟩ := h.vouches ⟨_, rfl⟩ unknownOpcode List.mem_cons_self
  cases is with
  | nil => cases hlast
  | cons i is =>
    obtain ⟨kind, hk, -⟩ := hv i List.mem_cons_self
    obtain ⟨hop, -⟩ := hm
    rw [← hop] at hk
    cases hk

end FastWasm
