import FastWasm.Sections

/-!
# The import section

The handler passes twice over the imports: once to count them by kind, once to store them. The
counting pass reads only the first byte of a table type, so behind a table the two passes are out of
step: the section comes back from its encoding exactly when it lists no table
(`importSection_roundTrip_iff`).

Each pass has its own lemma. The filling pass reads every import as it was encoded, and stores it in
the array of its kind as long as the counts have left room. The counting pass reads all of an import
if and only if that is no table, so the passes are in step as long as there is none, whatever else
the section lists.
-/

namespace FastWasm

open Logged (Fallible)
open Logged.Fallible

variable {mem : Mem}

/-! ## Encoded imports

What an import is before it is encoded, and what of it a module keeps. -/

/-- What is imported, before it is encoded; a table or a memory may do without a maximum. -/
inductive ImportType where
  /-- a function, by the index of its type -/
  | func (typeidx : UInt32)
  /-- a table -/
  | table (elemtype : UInt8) (min : UInt32) (max : Option UInt32)
  /-- a memory -/
  | memory (min : UInt32) (max : Option UInt32)
  /-- a global -/
  | global (valtype mutable : UInt8)

/-- An import before it is encoded: its two names and what is imported. -/
structure ImportSpec where
  /-- the module name -/
  mname : List UInt8
  /-- the field name -/
  nsname : List UInt8
  /-- what is imported -/
  type : ImportType

/-- The flag that says whether there is a maximum, the minimum, and the maximum. -/
def EncodesLimits (min : UInt32) : Option UInt32 → List UInt8 → Prop
  | none, bs => ∃ ls, Leb128.Spells 32 min.toNat ls ∧ bs = [0x00] ++ ls
  | some max, bs => ∃ ls hs, Leb128.Spells 32 min.toNat ls ∧ Leb128.Spells 32 max.toNat hs ∧
      bs = [0x01] ++ (ls ++ hs)

namespace ImportType

/-- The byte of the kind, as the binary format has it. -/
def kindByte : ImportType → UInt8
  | func _ => 0
  | table .. => 1
  | memory .. => 2
  | global .. => 3

/-- The descriptor as the module stores it, with the maximum it puts for none. -/
def stored : ImportType → FwImportDesc
  | func typeidx => .func typeidx
  | table elemtype min max => .table elemtype min (max.getD 0x1000)
  | memory min max => .memory min (max.getD 0x1000)
  | global valtype mutable => .global valtype mutable

/-- The kind. -/
def kind (t : ImportType) : FwImportKind := t.stored.kind

/-- The encoding of the descriptor. -/
def Encodes : ImportType → List UInt8 → Prop
  | func typeidx, bs => Leb128.Spells 32 typeidx.toNat bs
  | table elemtype min max, bs => elemtype < 0x80 ∧ ∃ ls, EncodesLimits min max ls ∧
      bs = [elemtype] ++ ls
  | memory min max, bs => EncodesLimits min max bs
  | global valtype mutable, bs => valtype < 0x80 ∧ mutable < 0x80 ∧ bs = [valtype] ++ [mutable]

theorem ofByte_kindByte (t : ImportType) : FwImportKind.ofByte t.kindByte = some t.kind := by
  cases t <;> rfl

theorem kindByte_lt : (t : ImportType) → t.kindByte < 0x80
  | func _ => (by decide : (0 : UInt8) < 0x80)
  | table .. => (by decide : (1 : UInt8) < 0x80)
  | memory .. => (by decide : (2 : UInt8) < 0x80)
  | global .. => (by decide : (3 : UInt8) < 0x80)

end ImportType

namespace ImportSpec

/-- The import as the module stores it. -/
def stored (imp : ImportSpec) : LoadedImport := ⟨imp.mname, imp.nsname, imp.type.stored⟩

/-- The encoding of an import: two names with their lengths, the kind, the descriptor. -/
def Encodes (imp : ImportSpec) (bs : List UInt8) : Prop :=
  ∃ ml nl desc, Leb128.Spells 32 imp.mname.length ml ∧ Leb128.Spells 32 imp.nsname.length nl ∧
    imp.type.Encodes desc ∧
    bs = (ml ++ imp.mname) ++ ((nl ++ imp.nsname) ++ ([imp.type.kindByte] ++ desc))

end ImportSpec

/-! ## The filling pass

An import is read from all its encodings, and comes out as it is stored. -/

/-- A name is copied before it is passed over, from where the cursor is. -/
theorem readsAs_importName {name ls : List UInt8} (h : Leb128.Spells 32 name.length ls) :
    ReadsAs mem (fwImportName mem) (ls ++ name) name := by
  intro str hm hlast
  obtain ⟨hm, hm'⟩ := (holds_append ..).mp hm
  rw [List.length_append] at hlast ⊢
  have hn := ReadsAs.getu32 h str hm (by omega)
  have hlen : (UInt32.ofNat name.length).toNat = name.length := Nat.mod_eq_of_lt h.1
  rw [fwImportName]
  simp only [runs_bind, runs_makeStr, runs_pass, runs_pure]
  refine ⟨_, _, hn, _, _, ⟨rfl, rfl⟩, ⟨⟩, _, ⟨?_, rfl⟩, ?_, ?_⟩
  · simp only [hlen]
    omega
  · rw [hlen, bytesAt_of_holds hm']
  · rw [hlen, Nat.add_assoc]

/-- A name that the counting pass skips, in front of what follows. -/
theorem readsAs_skipName {α : Type} {m : Parse α} {name ls bs : List UInt8} {a : α}
    (h : Leb128.Spells 32 name.length ls) (hm : ReadsAs mem m bs a) :
    ReadsAs mem (do
      let len ← fwStrLebGetu32 mem
      fwStrPass len.toNat
      m) ((ls ++ name) ++ bs) a := by
  have hlen : (UInt32.ofNat name.length).toNat = name.length := Nat.mod_eq_of_lt h.1
  rw [List.append_assoc]
  refine (ReadsAs.getu32 h).bind (ReadsAs.bind (a := ⟨⟩) ?_ hm)
  rw [hlen]
  exact ReadsAs.pass name

/-- Limits, with the maximum that is put for none, as far as the filling pass reads them. -/
theorem readsAs_limits {α : Type} {min dflt : UInt32} {max : Option UInt32} {bs : List UInt8}
    (f : UInt32 → UInt32 → α) (h : EncodesLimits min max bs) :
    ReadsAs mem (do
      let limits ← fwStrLebGetu32 mem
      let lmin ← fwStrLebGetu32 mem
      let lmax ← fwLimitsMax mem limits dflt
      pure (f lmin lmax)) bs (f min (max.getD dflt)) := by
  cases max with
  | none =>
    obtain ⟨ls, hls, rfl⟩ := h
    have h0 : Leb128.Spells 32 (0 : UInt32).toNat [0x00] := by decide
    have hmax : ReadsAs mem (fwLimitsMax mem 0 dflt) [] dflt := ReadsAs.pure dflt
    rw [← List.append_nil ls]
    exact (ReadsAs.getu32_toNat h0).bind
      ((ReadsAs.getu32_toNat hls).bind (hmax.bind_pure (f min)))
  | some max =>
    obtain ⟨ls, hs, hls, hhs, rfl⟩ := h
    have h1 : Leb128.Spells 32 (1 : UInt32).toNat [0x01] := by decide
    have hmax : ReadsAs mem (fwLimitsMax mem 1 dflt) hs max := ReadsAs.getu32_toNat hhs
    exact (ReadsAs.getu32_toNat h1).bind
      ((ReadsAs.getu32_toNat hls).bind (hmax.bind_pure (f min)))

theorem readsAs_importDesc {t : ImportType} {bs : List UInt8} (h : t.Encodes bs) :
    ReadsAs mem (fwImportDesc mem t.kind) bs t.stored := by
  cases t with
  | func typeidx => exact (ReadsAs.getu32_toNat h).bind_pure FwImportDesc.func
  | table elemtype min max =>
    obtain ⟨hlt, ls, hls, rfl⟩ := h
    change ReadsAs mem (fwImportDesc mem .table) _ (.table elemtype min (max.getD 0x1000))
    rw [fwImportDesc]
    refine (ReadsAs.getu8 hlt).bind ?_
    exact readsAs_limits (FwImportDesc.table elemtype) hls
  | memory min max => exact readsAs_limits FwImportDesc.memory h
  | global valtype mutable =>
    obtain ⟨hv, hm, rfl⟩ := h
    exact (ReadsAs.getu8 hv).bind ((ReadsAs.getu8 hm).bind_pure (FwImportDesc.global valtype))

/-- The filling pass reads an import as it was encoded. -/
theorem readsAs_importEntry {imp : ImportSpec} {bs : List UInt8} (h : imp.Encodes bs) :
    ReadsAs mem (fwImportEntry mem) bs imp.stored := by
  obtain ⟨ml, nl, desc, hml, hnl, hdesc, rfl⟩ := h
  refine (readsAs_importName hml).bind ((readsAs_importName hnl).bind
    ((ReadsAs.getu8 imp.type.kindByte_lt).bind ?_))
  rw [imp.type.ofByte_kindByte]
  exact (readsAs_importDesc hdesc).bind_pure (LoadedImport.mk imp.mname imp.nsname)

/-! ## The counting pass

It goes over the names and the kind, and over a descriptor as far as it knows the kind. -/

/-- Of a descriptor that is not a table's the counting pass reads all. -/
theorem readsAs_importSkip {t : ImportType} {bs : List UInt8} (h : t.Encodes bs)
    (ht : t.kind ≠ .table) : ReadsAs mem (fwImportSkip mem (some t.kind)) bs ⟨⟩ := by
  cases t with
  | func typeidx => exact (ReadsAs.getu32_toNat h).bind_pure fun _ => PUnit.unit
  | table elemtype min max => exact absurd rfl ht
  | memory min max => exact readsAs_limits (fun _ _ => PUnit.unit) h
  | global valtype mutable =>
    obtain ⟨hv, hm, rfl⟩ := h
    exact (ReadsAs.getu8 hv).bind ((ReadsAs.getu8 hm).bind_pure fun _ => PUnit.unit)

/-- Of a table's it reads the first byte, and the limits are left. -/
theorem readsAs_importSkip_table {elemtype : UInt8} (h : elemtype < 0x80) :
    ReadsAs mem (fwImportSkip mem (some .table)) [elemtype] ⟨⟩ :=
  (ReadsAs.getu8 h).bind_pure fun _ => PUnit.unit

/-- The counting pass over names and a kind, whatever the descriptor is. -/
theorem readsAs_importSeen {imp : ImportSpec} {ml nl desc : List UInt8}
    (hml : Leb128.Spells 32 imp.mname.length ml) (hnl : Leb128.Spells 32 imp.nsname.length nl)
    (hskip : ReadsAs mem (fwImportSkip mem (some imp.type.kind)) desc ⟨⟩) :
    ReadsAs mem (fwImportSeen mem)
      ((ml ++ imp.mname) ++ ((nl ++ imp.nsname) ++ ([imp.type.kindByte] ++ desc)))
      (some imp.type.kind) := by
  refine readsAs_skipName hml (readsAs_skipName hnl
    ((ReadsAs.getu8 imp.type.kindByte_lt).bind ?_))
  rw [imp.type.ofByte_kindByte]
  exact hskip.bind_pure fun _ => some imp.type.kind

/-- The counting pass reads all of an import if and only if it is not a table. Of a table it passes
over the byte of the element type and takes the limits behind it for the next import. -/
theorem runs_importSeen {imp : ImportSpec} {bs : List UInt8} (str : FwStr) (h : imp.Encodes bs)
    (hm : Holds mem str.pos bs) (hlast : str.pos + bs.length ≤ str.last) :
    ∃ n, Runs (fwImportSeen mem) str (some imp.type.kind) ⟨str.pos + n, str.last⟩ ∧
      (n = bs.length ↔ imp.type.kind ≠ .table) := by
  obtain ⟨ml, nl, desc, hml, hnl, hdesc, rfl⟩ := h
  by_cases ht : imp.type.kind = .table
  · obtain ⟨mname, nsname, _ | ⟨elemtype, min, max⟩ | _ | _⟩ := imp
    · cases ht
    · obtain ⟨hlt, ls, hls, rfl⟩ := hdesc
      have hpos : 0 < ls.length := by
        cases max with
        | none => obtain ⟨ls, -, rfl⟩ := hls; simp
        | some max => obtain ⟨ls, hs, -, -, rfl⟩ := hls; simp
      have hskip : ReadsAs mem (fwImportSkip mem (some .table)) [elemtype] ⟨⟩ :=
        readsAs_importSkip_table hlt
      have hread := readsAs_importSeen hml hnl hskip
      simp only [← List.append_assoc] at hm hlast ⊢
      simp only [← List.append_assoc] at hread
      rw [List.length_append] at hlast ⊢
      refine ⟨_, hread str ((holds_append ..).mp hm).1 (by omega), ?_⟩
      exact iff_of_false (by omega) (not_not.mpr ht)
    · cases ht
    · cases ht
  · exact ⟨_, readsAs_importSeen hml hnl (readsAs_importSkip hdesc ht) str hm hlast,
      iff_of_true rfl ht⟩

/-! ## The round trip

Behind imports that are no tables both passes stand at the same byte. The counts are right then, and
there is room for what is stored. -/

/-- The imports of a kind, as they are stored, in the order of the section. -/
def storedOf (k : FwImportKind) (imps : List ImportSpec) : List LoadedImport :=
  importsOf k (imps.map ImportSpec.stored)

/-- The section comes back from the encodings of its imports: the handler returns `FW_OK`, the
counts are those of the kinds, each array has the imports of its kind, and both passes go over the
same bytes of every import. -/
structure ImportRoundTrip (mem : Mem) (s : LoadState) (start : ℕ) (imps : List ImportSpec)
    (encs : List (List UInt8)) : Prop where
  /-- the handler returns `FW_OK`, the counts are those of the kinds, and so are the entries -/
  returns : ∃ s', Runs (fwModuleSectionImport mem) s ⟨⟩ s' ∧ ∀ k,
    s'.module.importCnt k = UInt32.ofNat (storedOf k imps).length ∧
      (s'.module.imports k).take (s'.module.importCnt k).toNat = storedOf k imps
  /-- both passes consume the same bytes of every import -/
  inStep : ∀ i < imps.length, ∀ st st₁ st₂ : LoadState,
    st.sec.data = ⟨start + (encs.take i).flatten.length, s.sec.data.last⟩ →
      Runs (fwImportCount mem) st ⟨⟩ st₁ → Runs (fwImportFill mem) st ⟨⟩ st₂ →
        st₁.sec.data = st₂.sec.data

theorem count_kinds (k : FwImportKind) (imps : List ImportSpec) :
    (imps.map fun imp => some imp.type.kind).count (some k) = (storedOf k imps).length := by
  induction imps with
  | nil => rfl
  | cons imp imps ih =>
    rw [List.map_cons, List.count_cons, ih, storedOf, storedOf, List.map_cons, importsOf_cons]
    have hkind : imp.stored.desc.kind = imp.type.kind := rfl
    by_cases hk : imp.type.kind = k
    · simp [hkind, hk]
    · simp [hkind, hk]

/-- What the encodings of imports are before and behind one of them. -/
theorem holds_enc {p i : ℕ} {encs : List (List UInt8)} (hm : Holds mem p encs.flatten)
    (hi : i < encs.length) :
    Holds mem (p + (encs.take i).flatten.length) encs[i] ∧
      (encs.take i).flatten.length + encs[i].length ≤ encs.flatten.length := by
  have hsplit : encs.flatten =
      (encs.take i).flatten ++ (encs[i] ++ (encs.drop (i + 1)).flatten) := by
    rw [← List.flatten_cons, ← List.drop_eq_getElem_cons hi, ← List.flatten_append,
      List.take_append_drop]
  rw [hsplit, holds_append, holds_append] at hm
  refine ⟨hm.2.1, ?_⟩
  have hlen := congrArg List.length hsplit
  simp only [List.length_append] at hlen
  omega

section RoundTrip

variable {s : LoadState} {imps : List ImportSpec} {cs : List UInt8} {encs : List (List UInt8)}

/-- Behind a table the passes are out of step, so there is none if they are in step everywhere. The
two passes are run at the import in question, from a module that has room for it. -/
theorem ne_table_of_inStep (hencs : List.Forall₂ ImportSpec.Encodes imps encs) {start : ℕ}
    (hm : Holds mem start encs.flatten) (hlast : start + encs.flatten.length ≤ s.sec.data.last)
    (h : ImportRoundTrip mem s start imps encs) : ∀ imp ∈ imps, imp.type.kind ≠ .table := by
  intro imp himp
  obtain ⟨i, hi, rfl⟩ := List.mem_iff_getElem.mp himp
  have hi' : i < encs.length := hencs.length_eq ▸ hi
  have hE : imps[i].Encodes encs[i] := (List.forall₂_iff_get.mp hencs).2 i hi hi'
  obtain ⟨hm, hle⟩ := holds_enc hm hi'
  let str : FwStr := ⟨start + (encs.take i).flatten.length, s.sec.data.last⟩
  obtain ⟨n, hseen, hiff⟩ := runs_importSeen str hE hm (by simp only [str]; omega)
  have hentry := readsAs_importEntry hE str hm (by simp only [str]; omega)
  -- a module with room for one import of every kind
  let st : LoadState := ⟨{ LoadedModule.new [] str with importCnt := fun _ => 1 }, ⟨2, str, false⟩⟩
  have hcount : Runs (fwImportCount mem) st ⟨⟩ ⟨st.module.countImport (some imps[i].type.kind),
      ⟨2, ⟨str.pos + n, str.last⟩, false⟩⟩ := by
    simp only [runs_importCount, runs_bind, runs_onData, runs_update, exists_built]
    exact ⟨_, _, hseen, rfl⟩
  have hfill : Runs (fwImportFill mem) st ⟨⟩ ⟨st.module.addImport imps[i].stored.desc.kind
      imps[i].stored, ⟨2, ⟨str.pos + encs[i].length, str.last⟩, false⟩⟩ :=
    runs_importFill.mpr ⟨_, _, hentry, by simp [st, LoadedModule.new], rfl⟩
  have heq := h.inStep i hi st _ _ rfl hcount hfill
  simp only [FwStr.mk.injEq, and_true] at heq
  exact hiff.mp (by omega)

/-- Without tables the passes are in step, over each of the imports. -/
theorem inStep_of_ne_table (hencs : List.Forall₂ ImportSpec.Encodes imps encs) {start i last : ℕ}
    (hm : Holds mem start encs.flatten) (hlast : start + encs.flatten.length ≤ last)
    (hne : ∀ imp ∈ imps, imp.type.kind ≠ .table) (hi : i < imps.length) {st st₁ st₂ : LoadState}
    (hst : st.sec.data = ⟨start + (encs.take i).flatten.length, last⟩)
    (hcount : Runs (fwImportCount mem) st ⟨⟩ st₁) (hfill : Runs (fwImportFill mem) st ⟨⟩ st₂) :
    st₁.sec.data = st₂.sec.data := by
  have hi' : i < encs.length := hencs.length_eq ▸ hi
  have hE : imps[i].Encodes encs[i] := (List.forall₂_iff_get.mp hencs).2 i hi hi'
  obtain ⟨hm, hle⟩ := holds_enc hm hi'
  rw [runs_importCount] at hcount
  simp only [runs_bind, runs_onData, runs_update, exists_built, hst] at hcount
  obtain ⟨kind, d₁, h₁, rfl⟩ := hcount
  obtain ⟨imp, d₂, h₂, -, rfl⟩ := runs_importFill.mp hfill
  rw [hst] at h₂
  obtain ⟨n, hseen, hiff⟩ := runs_importSeen
    ⟨start + (encs.take i).flatten.length, last⟩ hE hm (by simp only; omega)
  have hentry := readsAs_importEntry hE ⟨_, last⟩ hm (by simp only; omega)
  rw [(h₁.unique hseen).2, (h₂.unique hentry).2, hiff.mpr (hne _ (List.getElem_mem hi))]

/-- The two passes over imports without a table, one import after the other. -/
theorem reads_imports (hencs : List.Forall₂ ImportSpec.Encodes imps encs) (str : FwStr)
    (hm : Holds mem str.pos encs.flatten) (hlast : str.pos + encs.flatten.length ≤ str.last)
    (hne : ∀ imp ∈ imps, imp.type.kind ≠ .table) :
    Reads (fwImportSeen mem) str (imps.map fun imp => some imp.type.kind)
        ⟨str.pos + encs.flatten.length, str.last⟩ ∧
      Reads (fwImportEntry mem) str (imps.map ImportSpec.stored)
        ⟨str.pos + encs.flatten.length, str.last⟩ := by
  have hc := Leb128.concat_flatten hencs
  refine ⟨?_, ?_⟩
  · refine reads_map_of_concat _ (fun imp himp bs hE str hm hlast => ?_) hc str hm hlast
    obtain ⟨n, hseen, hiff⟩ := runs_importSeen str hE hm hlast
    rwa [hiff.mpr (hne imp himp)] at hseen
  · exact reads_map_of_concat _ (fun imp _ bs hE => readsAs_importEntry hE) hc str hm hlast

/-- What the counting pass leaves for the filling pass when nothing was counted before: the count
of each kind, and an empty array for each kind there is. -/
theorem imports_counted {module : LoadedModule} {k : FwImportKind} (hlen : imps.length < 2 ^ 32)
    (h0 : module.importCnt k = 0) :
    let counted := (module.countImports (imps.map fun imp => some imp.type.kind)).allocImports
    counted.importCnt k = UInt32.ofNat (storedOf k imps).length ∧
      (counted.importCnt k).toNat = (storedOf k imps).length ∧
      (storedOf k imps ≠ [] → counted.imports k = []) := by
  intro counted
  have hle : (storedOf k imps).length ≤ imps.length := by
    rw [storedOf, importsOf]
    exact (List.length_filter_le ..).trans (by rw [List.length_map])
  have hcnt : counted.importCnt k = UInt32.ofNat (storedOf k imps).length := by
    simp only [counted, LoadedModule.allocImports, LoadedModule.countImports, count_kinds, h0,
      UInt32.zero_add]
  have htoNat : (counted.importCnt k).toNat = (storedOf k imps).length := by
    rw [hcnt]
    exact Nat.mod_eq_of_lt (by omega)
  refine ⟨hcnt, htoNat, fun hne => if_pos fun h => ?_⟩
  change counted.importCnt k = 0 at h
  rw [h] at htoNat
  exact hne (List.length_eq_zero_iff.mp htoNat.symm)

/-- Where the passes are in step, the count the handler leaves is that of the imports only if it
was 0 before. -/
theorem importCnt_eq_zero {n : UInt32} {s₀ : LoadState} {d d' : FwStr} {k : FwImportKind}
    (hn : Runs (fwStrLebGetu32 mem) s.sec.data n d) (hlen : n.toNat = imps.length)
    (hseen : Reads (fwImportSeen mem) d (imps.map fun imp => some imp.type.kind) d')
    (hrun : Runs (fwModuleSectionImport mem) s ⟨⟩ s₀)
    (hcnt : s₀.module.importCnt k = UInt32.ofNat (storedOf k imps).length) :
    s.module.importCnt k = 0 := by
  obtain ⟨n', d₀, hn', hrun⟩ := runs_sectionImport.mp hrun
  obtain ⟨rfl, rfl⟩ := hn.unique hn'
  rcases hrun with ⟨-, kinds, hkinds, d₁, hseen', es, -, d₂, -, -, -, rfl⟩ | ⟨hz, -, rfl⟩
  · obtain ⟨rfl, -⟩ := hseen.unique hseen' (by rw [hkinds, hlen, List.length_map])
    simp only [LoadedModule.addImports, LoadedModule.allocImports, LoadedModule.countImports,
      count_kinds] at hcnt
    grind
  · obtain rfl := not_not.mp hz
    obtain rfl := List.length_eq_zero_iff.mp hlen.symm
    exact hcnt

/-- What the handler stores when nothing was counted before, where both passes read all imports. For
each kind the array is as long as the first pass has counted, which is just enough for the second.
-/
theorem sectionImport_stores {n : UInt32} {d d' : FwStr}
    (hn : Runs (fwStrLebGetu32 mem) s.sec.data n d) (hlen : n.toNat = imps.length)
    (hseen : Reads (fwImportSeen mem) d (imps.map fun imp => some imp.type.kind) d')
    (hentry : Reads (fwImportEntry mem) d (imps.map ImportSpec.stored) d')
    (hd : d'.pos = d'.last) (hzero : ∀ k, s.module.importCnt k = 0) :
    ∃ s', Runs (fwModuleSectionImport mem) s ⟨⟩ s' ∧ ∀ k,
      s'.module.importCnt k = UInt32.ofNat (storedOf k imps).length ∧
        (s'.module.imports k).take (s'.module.importCnt k).toNat = storedOf k imps := by
  by_cases hz : n = 0
  · obtain rfl := List.length_eq_zero_iff.mp (hlen.symm.trans (UInt32.toNat_inj.mpr hz))
    obtain rfl := reads_nil.mp hseen
    refine ⟨_, runs_sectionImport.mpr ⟨_, _, hn, .inr ⟨not_not.mpr hz, hd, rfl⟩⟩, fun k => ?_⟩
    simp only [hzero k]
    exact ⟨rfl, rfl⟩
  · have hlt : imps.length < 2 ^ 32 := hlen ▸ n.toNat_lt
    refine ⟨_, runs_sectionImport.mpr ⟨_, _, hn, .inl ⟨hz, _, ?_, _, hseen, _, ?_, _, hentry, ?_,
      hd, rfl⟩⟩, fun k => ?_⟩
    · rw [List.length_map, hlen]
    · rw [List.length_map, hlen]
    · intro imp himp
      obtain ⟨-, hcnt, hempty⟩ := imports_counted hlt (hzero imp.desc.kind)
      have hmem : imp ∈ storedOf imp.desc.kind imps := List.mem_filter.mpr ⟨himp, by simp⟩
      rw [hcnt, hempty (List.ne_nil_of_mem hmem), List.length_nil, Nat.zero_add]
      exact le_rfl
    · obtain ⟨hcnt, htoNat, hempty⟩ := imports_counted hlt (hzero k)
      refine ⟨hcnt, ?_⟩
      simp only [LoadedModule.addImports]
      change (_ ++ storedOf k imps).take _ = _
      rw [htoNat]
      by_cases hk : storedOf k imps = []
      · rw [hk]
        rfl
      · rw [hempty hk, List.nil_append, List.take_length]

/-- The section comes back from its encoding if and only if it lists no table and nothing was
imported before it. Its payload is the number of the imports (`hcs`) and their encodings (`hencs`),
and nothing else. The second condition is there because the counts are added to, while the arrays
are allocated anew. -/
theorem importSection_roundTrip_iff (hcs : Leb128.Spells 32 imps.length cs)
    (hencs : List.Forall₂ ImportSpec.Encodes imps encs)
    (hm : Holds mem s.sec.data.pos (cs ++ encs.flatten))
    (hlast : s.sec.data.last = s.sec.data.pos + (cs ++ encs.flatten).length) :
    ImportRoundTrip mem s (s.sec.data.pos + cs.length) imps encs ↔
      (∀ imp ∈ imps, imp.type.kind ≠ .table) ∧ ∀ k, s.module.importCnt k = 0 := by
  obtain ⟨hm, hm'⟩ := (holds_append ..).mp hm
  rw [List.length_append] at hlast
  have hlen : (UInt32.ofNat imps.length).toNat = imps.length := Nat.mod_eq_of_lt hcs.1
  have hn := ReadsAs.getu32 hcs s.sec.data hm (by omega)
  refine ⟨?_, ?_⟩
  · intro h
    have hne := ne_table_of_inStep hencs hm' (by omega) h
    obtain ⟨hseen, -⟩ := reads_imports hencs ⟨s.sec.data.pos + cs.length, s.sec.data.last⟩ hm'
      (by simp only; omega) hne
    obtain ⟨s', hrun, hall⟩ := h.returns
    exact ⟨hne, fun k => importCnt_eq_zero hn hlen hseen hrun (hall k).1⟩
  · rintro ⟨hne, hzero⟩
    obtain ⟨hseen, hentry⟩ := reads_imports hencs
      ⟨s.sec.data.pos + cs.length, s.sec.data.last⟩ hm' (by simp only; omega) hne
    refine ⟨sectionImport_stores hn hlen hseen hentry ?_ hzero,
      fun i hi st st₁ st₂ hst hcount hfill =>
      inStep_of_ne_table hencs hm' (by omega) hne hi hst hcount hfill⟩
    simp only
    omega

end RoundTrip

/-- Two functions, and a memory and a global between them. -/
def mixedImports : List ImportSpec :=
  [⟨[0x6d], [0x66], .func 1⟩, ⟨[], [], .memory 1 (some 2)⟩, ⟨[0x6d], [0x67], .global 0x7f 1⟩,
    ⟨[], [0x68], .func 0⟩]

/-- Their bytes, import by import. -/
def mixedImportBytes : List (List UInt8) :=
  [[1, 0x6d, 1, 0x66, 0, 1], [0, 0, 2, 1, 1, 2], [1, 0x6d, 1, 0x67, 3, 0x7f, 1], [0, 1, 0x68, 0, 0]]

theorem mixedImports_encode : List.Forall₂ ImportSpec.Encodes mixedImports mixedImportBytes :=
  .cons ⟨[1], [1], [1], by decide, by decide, (by decide : Leb128.Spells 32 1 [1]), rfl⟩ <|
  .cons ⟨[0], [0], [1, 1, 2], by decide, by decide, ⟨[1], [2], by decide, by decide, rfl⟩, rfl⟩ <|
  .cons ⟨[1], [1], [0x7f, 1], by decide, by decide, ⟨by decide, by decide, rfl⟩, rfl⟩ <|
  .cons ⟨[0], [1], [0], by decide, by decide, (by decide : Leb128.Spells 32 0 [0]), rfl⟩ .nil

/-- They come back, the functions in the array of the functions in their order. -/
theorem mixedImports_roundTrip :
    ImportRoundTrip (memOf (4 :: mixedImportBytes.flatten))
      ⟨LoadedModule.new [] ⟨0, 0⟩, ⟨2, ⟨0, 25⟩, false⟩⟩ (0 + 1) mixedImports mixedImportBytes := by
  have hcs : Leb128.Spells 32 mixedImports.length [4] := by decide
  refine (importSection_roundTrip_iff (s := ⟨LoadedModule.new [] ⟨0, 0⟩, ⟨2, ⟨0, 25⟩, false⟩⟩) hcs
    mixedImports_encode (holds_memOf _) rfl).mpr ⟨?_, fun _ => rfl⟩
  decide

/-- An import of a table, without names. -/
def tableImport : ImportSpec := ⟨[], [], .table 0x70 0 none⟩

/-- An import of a memory, without names. -/
def memoryImport : ImportSpec := ⟨[], [], .memory 1 none⟩

theorem tableImport_encodes : tableImport.Encodes [0, 0, 1, 0x70, 0, 0] :=
  ⟨[0], [0], [0x70, 0, 0], by decide, by decide, ⟨by decide, [0, 0], ⟨[0], by decide, rfl⟩, rfl⟩,
    rfl⟩

theorem memoryImport_encodes : memoryImport.Encodes [0, 0, 2, 0, 1] :=
  ⟨[0], [0], [0, 1], by decide, by decide, ⟨[1], by decide, rfl⟩, rfl⟩

/-- Behind a table it does not: the counting pass takes the limits of the table for the names of
another import and counts a function, so that there is no room for the memory. -/
theorem tableMemory_not_roundTrip :
    List.Forall₂ ImportSpec.Encodes [tableImport, memoryImport]
        [[0, 0, 1, 0x70, 0, 0], [0, 0, 2, 0, 1]] ∧
      ¬ ∃ s', Runs (fwModuleSectionImport (memOf [2, 0, 0, 1, 0x70, 0, 0, 0, 0, 2, 0, 1]))
        ⟨LoadedModule.new [] ⟨0, 0⟩, ⟨2, ⟨0, 12⟩, false⟩⟩ ⟨⟩ s' := by
  have hencs : List.Forall₂ ImportSpec.Encodes [tableImport, memoryImport]
      [[0, 0, 1, 0x70, 0, 0], [0, 0, 2, 0, 1]] :=
    .cons tableImport_encodes (.cons memoryImport_encodes .nil)
  refine ⟨hencs, ?_⟩
  rintro ⟨s', hrun⟩
  have hcount : Runs (fwStrLebGetu32 (memOf [2, 0, 0, 1, 0x70, 0, 0, 0, 0, 2, 0, 1])) ⟨0, 12⟩ 2
    ⟨1, 12⟩ := rfl
  obtain ⟨n, d, hn, hrun⟩ := runs_sectionImport.mp hrun
  obtain ⟨rfl, rfl⟩ := hn.unique hcount
  rcases hrun with ⟨-, kinds, hkinds, d₁, hseen, imps, himps, d₂, hentry, hroom, -⟩ | ⟨h0, -⟩
  · have hkinds' : Reads (fwImportSeen (memOf [2, 0, 0, 1, 0x70, 0, 0, 0, 0, 2, 0, 1])) ⟨1, 12⟩
      [some .table, some .func] ⟨9, 12⟩ := .cons rfl (.cons rfl (.nil _))
    have himps' := reads_map_of_concat ImportSpec.stored (fun _ _ _ => readsAs_importEntry)
      (Leb128.concat_flatten hencs) ⟨1, 12⟩
      (holds_memOf_drop [2, 0, 0, 1, 0x70, 0, 0, 0, 0, 2, 0, 1] 1) (by decide)
    obtain ⟨rfl, -⟩ := hseen.unique hkinds' hkinds
    obtain ⟨rfl, -⟩ := hentry.unique himps' himps
    exact absurd (hroom memoryImport.stored (by simp)) (by decide)
  · exact absurd h0 (by decide)

end FastWasm
