import FastWasm.ParseStatus
import FastWasm.Functions
import FastWasm.Imports
import FastWasm.Limits
import FastWasm.Elements
import FastWasm.Types

/-!
# Files of modules

A module is written section by section, in the order of the ids, with custom sections anywhere
between. `fw_module_load` of such a file gives the module back, as far as it is stored at all; of a
module with memories it gives the part before them, since the handler of the memory section stops
the parse (`load_moduleFile`).

What comes back from each section is a result of its own, in the module about that section. Here
they are put in a row. After the sections before an id, the loaded module has what they hold and
nothing of what comes behind (`Progress`), and the handler of a section takes that one step further;
custom sections change nothing, and a section that is left out holds nothing. The code section is
read by the handler of the function section and then passed over.

What the loader asks of a module (`Loadable`) is what the results about the sections ask. An import
of a table, or an element segment with two functions, is well formed and does not come back;
the theorem about the element section says so, and this one leaves such modules out.
-/

namespace FastWasm

open Logged (Fallible Part)
open Logged.Fallible
open Leb128

variable {mem : Mem}

/-! ## Modules before they are encoded

A module with its parts as they would be written, and what of it is in which section. -/

/-- A module before it is encoded: the lists that its sections encode, and no custom sections. -/
structure ModuleSpec where
  /-- the types -/
  types : List TypeSpec
  /-- the imports -/
  imports : List ImportSpec
  /-- the defined functions -/
  funcs : List FuncCode
  /-- the tables -/
  tables : List (UInt32 × Option UInt32)
  /-- the memories -/
  memories : List (UInt32 × Option UInt32)
  /-- the globals -/
  globals : List GlobalSpec
  /-- the exports -/
  exports : List ExportSpec
  /-- the start function -/
  start : Option UInt32
  /-- the element segments -/
  elems : List ElemSpec
  /-- the data segments -/
  datas : List DataSpec

/-- A counted array holds what was encoded: so many entries, each that of its value. -/
structure Stores {α β : Type} (P : α → β → Prop) (as : List α) (cnt : UInt32) (items : List β) :
    Prop where
  /-- the count -/
  count : cnt.toNat = as.length
  /-- the entries -/
  entries : List.Forall₂ P as items

theorem Stores.nil {α β : Type} {P : α → β → Prop} : Stores P [] 0 [] := ⟨rfl, .nil⟩

theorem Stores.eq_nil {α β : Type} {P : α → β → Prop} {cnt : UInt32} {items : List β}
    (h : Stores P [] cnt items) : cnt = 0 ∧ items = [] :=
  ⟨UInt32.toNat_inj.mp h.count, List.forall₂_nil_left_iff.mp h.entries⟩

namespace ModuleSpec

/-- The payload of a section, by its id. -/
def EncodesSection (m : ModuleSpec) : UInt8 → List UInt8 → Prop
  | 0, _ => True
  | 1, bs => Vec TypeSpec.Encodes m.types bs
  | 2, bs => Vec ImportSpec.Encodes m.imports bs
  | 3, bs => Vec FuncCode.EncodesType m.funcs bs
  | 4, bs => Vec EncodesTable m.tables bs
  | 5, bs => Vec EncodesMemory m.memories bs
  | 6, bs => Vec GlobalSpec.Encodes m.globals bs
  | 7, bs => Vec ExportSpec.Encodes m.exports bs
  | 8, bs => ∃ idx ∈ m.start, Spells 32 idx.toNat bs
  | 9, bs => Vec ElemSpec.Encodes m.elems bs
  | 10, bs => Vec FuncCode.EncodesCode m.funcs bs
  | 11, bs => Vec DataSpec.Encodes m.datas bs
  | _, _ => False

/-- The sections that may not be left out, because they hold something. -/
def Needs (m : ModuleSpec) : UInt8 → Prop
  | 1 => m.types ≠ []
  | 2 => m.imports ≠ []
  | 3 => m.funcs ≠ []
  | 4 => m.tables ≠ []
  | 5 => m.memories ≠ []
  | 6 => m.globals ≠ []
  | 7 => m.exports ≠ []
  | 8 => m.start ≠ none
  | 9 => m.elems ≠ []
  | 11 => m.datas ≠ []
  | _ => False

/-- These are the sections of a file of the module: in the order of their ids, each an encoding of
its part, with none left out that holds something, and custom sections between. -/
structure Written (m : ModuleSpec) (secs : List RawSection) : Prop where
  /-- they have their sizes -/
  wellFormed : ∀ sec ∈ secs, sec.WellFormed
  /-- they have their payloads -/
  encodes : ∀ sec ∈ secs, m.EncodesSection sec.type sec.payload
  /-- but for custom sections they come in the order of their ids, each of them once -/
  ordered : secs.Pairwise fun a b => a.type ≠ 0 → b.type ≠ 0 → a.type < b.type
  /-- none is left out unless it is empty -/
  complete : ∀ id, m.Needs id → ∃ sec ∈ secs, sec.type = id
  /-- the code section is not left out -/
  code : ∃ sec ∈ secs, sec.type = fwSectionTypeCode

/-- What the loader asks of a module that has an encoding. Other modules with an encoding are
refused, or come back as something else. -/
structure Loadable (m : ModuleSpec) : Prop where
  /-- the numbers of parameters and results fit in a byte -/
  types : ∀ t ∈ m.types, t.Narrow
  /-- no table is imported -/
  imports : ∀ imp ∈ m.imports, imp.type.kind ≠ .table
  /-- the functions have types of the module -/
  typeidx : ∀ f ∈ m.funcs, f.typeidx.toNat < m.types.length
  /-- the locals of a function can be counted -/
  locals : ∀ f ∈ m.funcs, sumLocals f.groups < 2 ^ 32
  /-- the start function is compared with the number of defined functions -/
  start : ∀ idx ∈ m.start, idx.toNat ≤ m.funcs.length
  /-- an element segment has at most one function -/
  elems : ∀ seg ∈ m.elems, seg.funcs.length ≤ 1

/-- The loaded module holds everything of the module that is stored at all. Names and payloads are
slices of the file, compared by their bytes. -/
structure Loaded (mem : Mem) (m : ModuleSpec) (module : LoadedModule) : Prop where
  /-- the types -/
  types : Stores TypeSpec.Stored m.types module.typeCnt (module.type.getD [])
  /-- the imports of each kind -/
  imports : ∀ k, Stores Eq (storedOf k m.imports) (module.importCnt k) (module.imports k)
  /-- the defined functions -/
  funcs : Stores (FuncCode.Loaded mem (module.type.getD [])) m.funcs module.funcCnt module.funcs
  /-- the tables -/
  tables : Stores StoredTable m.tables module.tableCnt module.tables
  /-- the globals -/
  globals : Stores GlobalSpec.Stored m.globals module.globalCnt module.globals
  /-- the exports -/
  exports : Stores ExportSpec.Stored m.exports module.exportCnt module.exports
  /-- the start function -/
  start : module.startFunc = m.start.getD 0
  /-- the element segments -/
  elems : Stores ElemSpec.Stored m.elems module.elemCnt module.elems
  /-- the data segments -/
  datas : Stores (DataSpec.Stored mem) m.datas module.dataCnt module.datas

/-- What comes of a module before the section of an id. -/
def before (m : ModuleSpec) (id : ℕ) : ModuleSpec where
  types := if 1 < id then m.types else []
  imports := if 2 < id then m.imports else []
  funcs := if 3 < id then m.funcs else []
  tables := if 4 < id then m.tables else []
  memories := if 5 < id then m.memories else []
  globals := if 6 < id then m.globals else []
  exports := if 7 < id then m.exports else []
  start := if 8 < id then m.start else none
  elems := if 9 < id then m.elems else []
  datas := if 11 < id then m.datas else []

/-- What is loaded of a module: all of it, or what is before the memories. -/
def loadedPart (m : ModuleSpec) : ModuleSpec := if m.memories = [] then m else m.before 5

end ModuleSpec

/-! ## Sections that are handled

For each section: when its handler is called on a module that has what comes before, it returns
`FW_OK` and the module has what the section holds as well. -/

section Step

variable {m : ModuleSpec} {s : LoadState} {bs : List UInt8}

theorem globalSection_loads {gs : List GlobalSpec} (hbs : Vec GlobalSpec.Encodes gs bs)
    (hpay : Payload mem s.sec.data bs) :
    ∃ s', Runs (fwModuleSectionGlobal mem) s ⟨⟩ s' ∧
      VecLoaded globalCntPart globalsPart GlobalSpec.Stored gs s s' :=
  vecSection_loads ⟨fun _ _ => rfl, fun _ _ => rfl, fun _ _ _ => rfl⟩
    (fun _ _ _ => readsTo_globalEntry) hbs hpay

theorem exportSection_loads {xs : List ExportSpec} (hbs : Vec ExportSpec.Encodes xs bs)
    (hpay : Payload mem s.sec.data bs) :
    ∃ s', Runs (fwModuleSectionExport mem) s ⟨⟩ s' ∧
      VecLoaded exportCntPart exportsPart ExportSpec.Stored xs s s' :=
  vecSection_loads ⟨fun _ _ => rfl, fun _ _ => rfl, fun _ _ _ => rfl⟩
    (fun _ _ _ => readsTo_exportEntry) hbs hpay

theorem dataSection_loads {segs : List DataSpec} (hbs : Vec DataSpec.Encodes segs bs)
    (hpay : Payload mem s.sec.data bs) :
    ∃ s', Runs (fwModuleSectionData mem) s ⟨⟩ s' ∧
      VecLoaded dataCntPart datasPart (DataSpec.Stored mem) segs s s' :=
  vecSection_loads ⟨fun _ _ => rfl, fun _ _ => rfl, fun _ _ _ => rfl⟩
    (fun _ _ _ => readsTo_dataEntry) hbs hpay

/-- A vector section whose array is empty stores what was encoded, and nothing else. -/
theorem vecSection_stores {α β : Type} {cnt : Part LoadedModule UInt32}
    {items : Part LoadedModule (List β)} {entry : Parse β} {P : α → β → Prop} {as : List α}
    (hcnt : Part.Apart cnt items)
    (hloads : ∃ s', Runs (fwVecSection mem cnt items entry) s ⟨⟩ s' ∧
      VecLoaded cnt items P as s s')
    (hempty : Stores P [] (cnt.get s.module) (items.get s.module)) :
    ∃ s' n vs, Runs (fwVecSection mem cnt items entry) s ⟨⟩ s' ∧
      s'.module = items.put vs (cnt.put n s.module) ∧ Stores P as n vs := by
  obtain ⟨s', hrun, hloaded⟩ := hloads
  obtain ⟨hcount, hitems⟩ := hempty.eq_nil
  have hlen := hloaded.count fun _ => hcount
  have hentries := hloaded.entries
  obtain ⟨n, d, -, ⟨-, vs, hvs, d', -, -, rfl⟩ | ⟨-, -, rfl⟩⟩ := runs_vecSection.mp hrun
  · simp only [items.get_put, hcnt.get_put, cnt.get_put] at hlen hentries
    rw [List.take_of_length_le (hvs.trans hlen).le] at hentries
    exact ⟨_, n, vs, hrun, rfl, hlen, hentries⟩
  · obtain rfl : as = [] := List.length_eq_zero_iff.mp (hlen.symm.trans (by rw [hcount]; rfl))
    refine ⟨_, 0, [], hrun, ?_, .nil⟩
    rw [← hcount, cnt.put_get, ← hitems, items.put_get]

/-- The types are stored, and the code section stays where it is. Before this section nothing refers
to a type yet: functions come later, so those that the module has are none. -/
theorem typeSection_stores {ts : List TypeSpec} (h : m.Loaded mem s.module) (hts : m.types = [])
    (hfuncs : m.funcs = []) (hnarrow : ∀ t ∈ ts, t.Narrow) (hbs : Vec TypeSpec.Encodes ts bs)
    (hpay : Payload mem s.sec.data bs) :
    ∃ s', Runs (fwModuleSectionType mem) s ⟨⟩ s' ∧
      ({ m with types := ts } : ModuleSpec).Loaded mem s'.module ∧
        s'.module.codeRef = s.module.codeRef := by
  obtain ⟨s', hrun, hcnt, htypes⟩ := typeSection_loads hbs hpay
  have hstored : List.Forall₂ TypeSpec.Stored ts (ts.map TypeSpec.entry) := by
    rw [List.forall₂_map_right_iff, List.forall₂_same]
    exact fun t ht => TypeSpec.stored_entry.mpr (hnarrow t ht)
  have hnone := h.types
  have hnofunc := h.funcs
  rw [hts] at hnone
  rw [hfuncs] at hnofunc
  obtain ⟨hcnt₀, htypes₀⟩ := hnone.eq_nil
  obtain ⟨hcnt₁, hfuncs₁⟩ := hnofunc.eq_nil
  have hloaded : ∀ n type, n.toNat = ts.length → type.getD [] = ts.map TypeSpec.entry →
      ({ m with types := ts } : ModuleSpec).Loaded mem
        { s.module with typeCnt := n, type := type } := fun n type hn htype =>
    { h with
      types := ⟨hn, htype ▸ hstored⟩
      funcs := by
        simp only [hfuncs, hcnt₁, hfuncs₁]
        exact .nil }
  obtain ⟨n, d, -, ⟨-, es, hes, d', -, -, rfl⟩ | ⟨hz, -, rfl⟩⟩ := runs_sectionType.mp hrun
  · refine ⟨_, hrun, hloaded n (some es) hcnt ?_, rfl⟩
    rwa [Option.getD_some, List.take_of_length_le (hes.trans hcnt).le] at htypes
  · obtain rfl : ts = [] := by
      rw [not_not.mp hz] at hcnt
      exact List.length_eq_zero_iff.mp hcnt.symm
    exact ⟨_, hrun, hloaded n s.module.type hcnt htypes₀, rfl⟩

/-- The imports are stored, and the code section stays where it is. No table is imported, so the
pass that counts and the pass that fills end at the same byte, and the arrays are as long as the
counts say. -/
theorem importSection_stores {imps : List ImportSpec} (h : m.Loaded mem s.module)
    (himps : m.imports = []) (hne : ∀ imp ∈ imps, imp.type.kind ≠ .table)
    (hbs : Vec ImportSpec.Encodes imps bs) (hpay : Payload mem s.sec.data bs) :
    ∃ s', Runs (fwModuleSectionImport mem) s ⟨⟩ s' ∧
      ({ m with imports := imps } : ModuleSpec).Loaded mem s'.module ∧
        s'.module.codeRef = s.module.codeRef := by
  obtain ⟨d, es, hn, hlen, hes, hd⟩ := hpay.count hbs
  have hnone := fun k => (himps ▸ h.imports k : Stores Eq (storedOf k []) _ _).eq_nil
  have hseen : Reads (fwImportSeen mem) d (imps.map fun imp => some imp.type.kind)
      ⟨d.pos + es.length, d.last⟩ := by
    refine reads_map_of_concat _ (fun imp himp bs hE str hm hlast => ?_) hes d hd.holds hd.last.ge
    obtain ⟨n, hseen, hiff⟩ := runs_importSeen str hE hm hlast
    rwa [hiff.mpr (hne imp himp)] at hseen
  have hentry := reads_map_of_concat ImportSpec.stored (fun _ _ _ => readsAs_importEntry) hes d
    hd.holds hd.last.ge
  obtain ⟨s', hrun, -⟩ := sectionImport_stores hn hlen hseen hentry hd.last.symm
    fun k => (hnone k).1
  obtain ⟨n', d', hn', hcase⟩ := runs_sectionImport.mp hrun
  obtain ⟨rfl, rfl⟩ := hn.unique hn'
  rcases hcase with ⟨-, kinds, hkinds, d₁, hseen', entries, hentries, d₂, hentry', -, -, rfl⟩ |
    ⟨hz, -, rfl⟩
  · obtain ⟨rfl, -⟩ := hseen.unique hseen' (by rw [hkinds, hlen, List.length_map])
    obtain ⟨rfl, -⟩ := hentry.unique hentry' (by rw [hentries, hlen, List.length_map])
    refine ⟨_, hrun, { h with imports := fun k => ?_ }, rfl⟩
    obtain ⟨-, hcnt, -⟩ := imports_counted (k := k) (hlen ▸ UInt32.toNat_lt _) (hnone k).1
    refine ⟨hcnt, ?_⟩
    rw [List.forall₂_eq_eq_eq]
    simp only [LoadedModule.addImports, LoadedModule.allocImports, LoadedModule.countImports,
      (hnone k).2, ite_self, List.nil_append]
    rfl
  · obtain rfl := eq_nil_of_count hlen (not_not.mp hz)
    exact ⟨_, hrun, by simpa only [← himps] using h, rfl⟩

/-- The functions are stored, with their types and their bodies. Two cursors move, one in
this section and one in the code section. Every type index is below the number of types, so the
check with `>` that lets one more through does no harm. -/
theorem funcSection_stores {fs : List FuncCode} {code : List UInt8} (h : m.Loaded mem s.module)
    (hfuncs : m.funcs = []) (hidx : ∀ f ∈ fs, f.typeidx.toNat < m.types.length)
    (hsum : ∀ f ∈ fs, sumLocals f.groups < 2 ^ 32) (hbs : Vec FuncCode.EncodesType fs bs)
    (hpay : Payload mem s.sec.data bs) (hcode : Vec FuncCode.EncodesCode fs code)
    (hpayc : Payload mem s.module.codeRef code) :
    ∃ s', Runs (fwModuleSectionFunc mem) s ⟨⟩ s' ∧
      ({ m with funcs := fs } : ModuleSpec).Loaded mem s'.module := by
  obtain ⟨d, is, hn, hlen, his, hd⟩ := hpay.count hbs
  obtain ⟨c, cs, hc, -, hcs, hc'⟩ := hpayc.count hcode
  by_cases hz : UInt32.ofNat fs.length = 0
  · obtain rfl := eq_nil_of_count hlen hz
    obtain rfl : is = [] := by cases his; rfl
    refine ⟨_, runs_sectionFunc.mpr ⟨_, d, c, hn, hc, .inr ⟨not_not.mpr hz, hd.last.symm, rfl⟩⟩,
      ?_⟩
    exact { h with funcs := hfuncs ▸ h.funcs }
  · have hi := reads_map_of_concat FuncCode.typeidx (fun _ _ _ => ReadsAs.getu32_toNat) his d
      hd.holds hd.last.ge
    obtain ⟨entries, he, hentries⟩ := reads_of_concat (P := FuncCode.Entry mem)
      (fun f hf _ => readsTo_codeEntry (hsum f hf)) hcs c hc'.holds hc'.last.ge
    have htypes : (s.module.type.getD []).length = m.types.length := h.types.entries.length_eq.symm
    have hlt : ∀ f ∈ fs, f.typeidx < s.module.typeCnt := fun f hf =>
      UInt32.lt_iff_toNat_lt.mpr (h.types.count ▸ hidx f hf)
    obtain ⟨f, hf⟩ := List.exists_mem_of_ne_nil fs fun hnil => hz (by rw [hnil]; rfl)
    obtain ⟨types, ht⟩ := LoadedModule.exists_type (h.types.count.trans htypes.symm).le (hlt f hf)
    refine ⟨_, runs_sectionFunc.mpr ⟨_, d, c, hn, hc, .inl ⟨hz, types, ht, _, _, hi, ?_, ?_,
      entries, _, he, ?_, hd.last.symm, rfl⟩⟩, { h with funcs := ⟨hlen, ?_⟩ }⟩
    · rw [List.length_map, hlen]
    · intro idx hmem
      obtain ⟨f, hf, rfl⟩ := List.mem_map.mp hmem
      exact UInt32.le_of_lt (hlt f hf)
    · rw [hlen, hentries.length_eq]
    · rw [ht, Option.getD_some] at htypes
      simp only [ht, Option.getD_some]
      exact forall₂_funcsOf (fun f hf => htypes ▸ hidx f hf) hentries

/-- The start function is stored, if it is at most the number of defined functions. -/
theorem startSection_stores {idx : UInt32} (h : m.Loaded mem s.module) (hstart : m.start = none)
    (hle : idx.toNat ≤ m.funcs.length) (hbs : Spells 32 idx.toNat bs)
    (hpay : Payload mem s.sec.data bs) :
    ∃ s', Runs (fwModuleSectionStart mem) s ⟨⟩ s' ∧
      ({ m with start := some idx } : ModuleSpec).Loaded mem s'.module := by
  have hread := ReadsAs.getu32_toNat hbs s.sec.data hpay.holds hpay.last.ge
  have hcnt : idx ≤ s.module.funcCnt := UInt32.le_iff_toNat_le.mpr (h.funcs.count ▸ hle)
  refine ⟨_, runs_sectionStart.mpr ⟨idx, _, hread, hcnt, hpay.last.symm, rfl⟩, ?_⟩
  by_cases h0 : idx = 0
  · subst h0
    exact { h with start := h.start.trans (by rw [hstart]; rfl) }
  · rw [if_pos h0]
    exact { h with start := rfl }

/-! ## The order of the sections

Ids go up from section to section, and a section that is skipped holds nothing. So what has been
loaded can be said by the id that comes next. -/

/-- What has been loaded before the section of an id; up to the functions the code section has not
been read. What comes behind is empty still. -/
structure Progress (mem : Mem) (m : ModuleSpec) (id : ℕ) (module : LoadedModule) : Prop where
  /-- the components of the sections before -/
  loaded : (m.before id).Loaded mem module
  /-- the code section -/
  code : id ≤ 3 → ∃ bs, Vec FuncCode.EncodesCode m.funcs bs ∧ Payload mem module.codeRef bs

theorem type_lt_of_encodes {type : UInt8} (h : m.EncodesSection type bs) :
    type < fwSectionTypeMax := by
  unfold ModuleSpec.EncodesSection at h
  split at h
  all_goals first | exact (by decide) | exact h.elim

/-- The handler of a section takes what has been loaded one section further. By cases on the type:
those of types, imports and functions have lemmas of their own, the others store a vector, or
nothing at all. -/
theorem Progress.step (hm : m.Loadable) (hmem : m.memories = []) {module : LoadedModule}
    {type : UInt8} {data : FwStr} {free : Bool} (h : Progress mem m type.toNat module)
    (hne : type ≠ 0) (hbs : m.EncodesSection type bs) (hpay : Payload mem data bs) :
    ∃ s', Runs (fwSectionHandler mem type) ⟨module, ⟨type, data, free⟩⟩ ⟨⟩ s' ∧
      Progress mem m (type.toNat + 1) s'.module := by
  obtain ⟨hloaded, hcode⟩ := h
  -- the vector sections behind the functions
  have hvec {α β : Type} {cnt : Part LoadedModule UInt32} {items : Part LoadedModule (List β)}
      {entry : Parse β} {P : α → β → Prop} {as : List α} (hcnt : Part.Apart cnt items)
      (hloads : ∃ s', Runs (fwVecSection mem cnt items entry) ⟨module, ⟨type, data, free⟩⟩ ⟨⟩ s' ∧
        VecLoaded cnt items P as ⟨module, ⟨type, data, free⟩⟩ s')
      (hempty : Stores P [] (cnt.get module) (items.get module)) (hlt : 3 < type.toNat)
      (hset : ∀ n vs, Stores P as n vs →
        (m.before (type.toNat + 1)).Loaded mem (items.put vs (cnt.put n module))) :
      ∃ s', Runs (fwVecSection mem cnt items entry) ⟨module, ⟨type, data, free⟩⟩ ⟨⟩ s' ∧
        Progress mem m (type.toNat + 1) s'.module := by
    obtain ⟨s', n, vs, hrun, hmod, hstores⟩ := vecSection_stores hcnt hloads hempty
    refine ⟨s', hrun, hmod ▸ hset n vs hstores, fun hle => ?_⟩
    omega
  rcases sectionType_cases (type_lt_of_encodes hbs) with
    rfl | rfl | rfl | rfl | rfl | rfl | rfl | rfl | rfl | rfl | rfl | rfl
  · exact absurd rfl hne
  · obtain ⟨s', hrun, hstored, href⟩ := typeSection_stores (s := ⟨module, ⟨1, data, free⟩⟩) hloaded
      rfl rfl hm.types hbs hpay
    exact ⟨s', hrun, hstored, fun _ => href ▸ hcode (by decide)⟩
  · obtain ⟨s', hrun, hstored, href⟩ := importSection_stores (s := ⟨module, ⟨2, data, free⟩⟩)
      hloaded rfl hm.imports hbs hpay
    exact ⟨s', hrun, hstored, fun _ => href ▸ hcode (by decide)⟩
  · obtain ⟨code, hcode, hpayc⟩ := hcode le_rfl
    obtain ⟨s', hrun, hstored⟩ := funcSection_stores (s := ⟨module, ⟨3, data, free⟩⟩) hloaded rfl
      hm.typeidx hm.locals hbs hpay hcode hpayc
    exact ⟨s', hrun, hstored, fun hle => absurd hle (by decide)⟩
  · exact hvec ⟨fun _ _ => rfl, fun _ _ => rfl, fun _ _ _ => rfl⟩ (tableSection_loads hbs hpay)
      hloaded.tables (by decide) fun n vs h => { hloaded with tables := h }
  · obtain ⟨d, es, hn, -, hes, hd⟩ := hpay.count (hmem ▸ hbs : Vec EncodesMemory [] bs)
    obtain rfl : es = [] := by cases hes; rfl
    exact ⟨_, runs_sectionMemory.mpr ⟨d, hn, hd.last.symm, rfl⟩, { hloaded with },
      fun hle => absurd hle (by decide)⟩
  · exact hvec ⟨fun _ _ => rfl, fun _ _ => rfl, fun _ _ _ => rfl⟩
      (globalSection_loads hbs hpay) hloaded.globals (by decide) fun n vs h =>
        { hloaded with globals := h }
  · exact hvec ⟨fun _ _ => rfl, fun _ _ => rfl, fun _ _ _ => rfl⟩
      (exportSection_loads hbs hpay) hloaded.exports (by decide) fun n vs h =>
        { hloaded with exports := h }
  · obtain ⟨idx, hidx, hbs⟩ := hbs
    obtain ⟨s', hrun, hstored⟩ := startSection_stores (s := ⟨module, ⟨8, data, free⟩⟩) hloaded rfl
      (hm.start idx hidx) hbs hpay
    rw [← Option.mem_def.mp hidx] at hstored
    exact ⟨s', hrun, hstored, fun hle => absurd hle (by decide)⟩
  · exact hvec ⟨fun _ _ => rfl, fun _ _ => rfl, fun _ _ _ => rfl⟩
      (elemSection_loads hbs hpay hm.elems) hloaded.elems (by decide) fun n vs h =>
        { hloaded with elems := h }
  · exact ⟨_, runs_pure.mpr ⟨rfl, rfl⟩, { hloaded with }, fun hle => absurd hle (by decide)⟩
  · exact hvec ⟨fun _ _ => rfl, fun _ _ => rfl, fun _ _ _ => rfl⟩
      (dataSection_loads hbs hpay) hloaded.datas (by decide) fun n vs h =>
        { hloaded with datas := h }

end Step

section Order

variable {m : ModuleSpec} {id id' : ℕ}

/-- Nothing is missing between two ids when no section between them is needed. -/
theorem before_eq (hle : id ≤ id')
    (hneeds : ∀ t : UInt8, id ≤ t.toNat → t.toNat < id' → ¬ m.Needs t) :
    m.before id = m.before id' := by
  have hfield {α : Type} {a b : α} (t : UInt8) (h : ¬ m.Needs t → a = b) :
      (if t.toNat < id then a else b) = if t.toNat < id' then a else b := by
    by_cases ht : t.toNat < id
    · rw [if_pos ht, if_pos (ht.trans_le hle)]
    · rw [if_neg ht]
      split
      · next ht' => exact (h (hneeds t (Nat.le_of_not_lt ht) ht')).symm
      · rfl
  simp only [ModuleSpec.before, ModuleSpec.mk.injEq]
  exact ⟨hfield 1 not_not.mp, hfield 2 not_not.mp, hfield 3 not_not.mp, hfield 4 not_not.mp,
    hfield 5 not_not.mp, hfield 6 not_not.mp, hfield 7 not_not.mp, hfield 8 not_not.mp,
    hfield 9 not_not.mp, hfield 11 not_not.mp⟩

theorem Progress.mono {module : LoadedModule} (h : Progress mem m id module) (hle : id ≤ id')
    (hneeds : ∀ t : UInt8, id ≤ t.toNat → t.toNat < id' → ¬ m.Needs t) :
    Progress mem m id' module :=
  ⟨before_eq hle hneeds ▸ h.loaded, fun hle' => h.code (hle.trans hle')⟩

/-- The sections that are left when everything before an id has been handled. -/
structure Rest (m : ModuleSpec) (id : ℕ) (secs : List RawSection) : Prop where
  /-- they have their payloads -/
  encodes : ∀ sec ∈ secs, m.EncodesSection sec.type sec.payload
  /-- they come in order -/
  ordered : secs.Pairwise fun a b => a.type ≠ 0 → b.type ≠ 0 → a.type < b.type
  /-- they do not lie before -/
  behind : ∀ sec ∈ secs, sec.type ≠ 0 → id ≤ sec.type.toNat
  /-- nothing behind is left out -/
  complete : ∀ t : UInt8, id ≤ t.toNat → m.Needs t → ∃ sec ∈ secs, sec.type = t

/-- The handlers load what the sections hold, one after the other, by induction on the sections that
are left. -/
theorem handled_of_rest (hm : m.Loadable) (hmem : m.memories = []) {secs : List RawSection}
    {fsecs : List FwModuleSection} (hslices : List.Forall₂ (RawSection.IsSlice mem) secs fsecs) :
    ∀ {id : ℕ} {module : LoadedModule}, Rest m id secs → Progress mem m id module → id ≤ 12 →
      ∃ m', Handled mem module fsecs m' ∧ m.Loaded mem m' := by
  induction hslices with
  | nil =>
    intro id module hrest h hle
    refine ⟨module, .nil module, ?_⟩
    have hmono := h.mono hle fun t ht _ hneeds => by
      obtain ⟨sec, hsec, -⟩ := hrest.complete t ht hneeds
      cases hsec
    exact hmono.loaded
  | @cons raw sec secs fsecs hslice _ ih =>
    intro id module hrest h hle
    obtain ⟨type, data, free⟩ := sec
    obtain ⟨rfl, hm₁, hlast⟩ := hslice
    obtain ⟨henc, hencs⟩ := List.forall_mem_cons.mp hrest.encodes
    obtain ⟨hfirst, hordered⟩ := List.pairwise_cons.mp hrest.ordered
    obtain ⟨hfrom, hfroms⟩ := List.forall_mem_cons.mp hrest.behind
    by_cases h0 : raw.type = 0
    · -- a custom section
      have hrun : Runs (fwSectionHandler mem raw.type) ⟨module, ⟨raw.type, data, free⟩⟩ ⟨⟩
          ⟨module, ⟨raw.type, data, free⟩⟩ := by
        rw [h0]
        exact runs_pure.mpr ⟨rfl, rfl⟩
      refine (ih ⟨hencs, hordered, hfroms, fun t ht hneeds => ?_⟩ h hle).imp fun m' h' =>
        ⟨.cons hrun h'.1, h'.2⟩
      obtain ⟨sec, hsec, rfl⟩ := hrest.complete t ht hneeds
      rcases List.mem_cons.mp hsec with rfl | hsec
      · rw [h0] at hneeds
        exact hneeds.elim
      · exact ⟨sec, hsec, rfl⟩
    · have hlt : raw.type.toNat < 12 := UInt8.lt_iff_toNat_lt.mp (type_lt_of_encodes henc)
      have hahead := h.mono (hfrom h0) fun t ht hlt hneeds => by
        obtain ⟨sec, hsec, rfl⟩ := hrest.complete t ht hneeds
        rcases List.mem_cons.mp hsec with rfl | hsec
        · exact lt_irrefl _ hlt
        · have ht0 : sec.type ≠ 0 := fun h0 => by
            rw [h0] at hneeds
            exact hneeds
          exact lt_asymm hlt (UInt8.lt_iff_toNat_lt.mp (hfirst sec hsec h0 ht0))
      obtain ⟨s', hrun, hstep⟩ := hahead.step hm hmem h0 henc ⟨hm₁, hlast⟩
      refine (ih ⟨hencs, hordered, fun sec hsec ht0 => ?_, fun t ht hneeds => ?_⟩ hstep hlt).imp
        fun m' h' => ⟨.cons hrun h'.1, h'.2⟩
      · exact UInt8.lt_iff_toNat_lt.mp (hfirst sec hsec h0 ht0)
      · obtain ⟨sec, hsec, rfl⟩ := hrest.complete t ((hfrom h0).trans (Nat.le_of_succ_le ht)) hneeds
        rcases List.mem_cons.mp hsec with rfl | hsec
        · exact absurd ht (Nat.not_succ_le_self _)
        · exact ⟨sec, hsec, rfl⟩

end Order

/-! ## The parse

All sections of a module without memories are handled. With memories the parse ends there, and
`fw_module_load` returns what there is. -/

/-- The parse ends at the first handler that fails, with what it has written. -/
theorem parse_of_fails {m m₁ : LoadedModule} {pre : List FwModuleSection}
    (post : List FwModuleSection) {sec : FwModuleSection} {s : LoadState} (h : Handled mem m pre m₁)
    (hfail : (fwSectionHandler mem sec.type ⟨m₁, sec⟩).res = .ok (none, s)) :
    ∃ secs, (fwParseSections mem (pre ++ sec :: post) m).res = .ok ((.err, secs), s.module) := by
  induction h with
  | nil =>
    rw [List.nil_append, fwParseSections]
    simp only [hfail]
    exact ⟨_, rfl⟩
  | cons head _ ih =>
    obtain ⟨secs, hrest⟩ := ih hfail
    rw [List.cons_append, fwParseSections]
    rw [Runs] at head
    simp only [head, hrest]
    exact ⟨_, rfl⟩

/-- The handler of the memory section sets the count and fails. -/
theorem memorySection_fails {s : LoadState} {limits : List (UInt32 × Option UInt32)}
    {bs : List UInt8} (hne : limits ≠ []) (hbs : Vec EncodesMemory limits bs)
    (hpay : Payload mem s.sec.data bs) :
    ∃ s' n, (fwModuleSectionMemory mem s).res = .ok (none, s') ∧
      s'.module = { s.module with memoryCnt := n } := by
  obtain ⟨d, es, hn, hlen, -, -⟩ := hpay.count hbs
  have hz : UInt32.ofNat limits.length ≠ 0 := fun hz => hne (eq_nil_of_count hlen hz)
  have hread : Runs (Load.onData (fwStrLebGetu32 mem)) s _ { s with sec.data := d } :=
    runs_onData.mpr ⟨d, hn, rfl⟩
  rw [fwModuleSectionMemory, bind_res_of_runs hread, if_pos hz]
  exact ⟨_, UInt32.ofNat limits.length, rfl, rfl⟩

/-- What was loaded and parsed is returned, whatever the status. -/
theorem load_of_parse {file str' : FwStr} {loaded m : LoadedModule} {status : Status}
    (hload : Runs (_fwModuleLoad mem) file loaded str')
    (hparse : fwModuleParse mem loaded = .ok (status, m)) :
    fwModuleLoad mem (some file) = .ok (some m) := by
  rw [Runs] at hload
  simp only [fwModuleLoad, hload, hparse]

/-- A module as it is loaded, before it is parsed, has nothing of any section. -/
theorem loaded_new (m : ModuleSpec) (secs : List FwModuleSection) (codeRef : FwStr) :
    (m.before 1).Loaded mem (.new secs codeRef) :=
  ⟨.nil, fun _ => .nil, .nil, .nil, .nil, .nil, rfl, .nil, .nil⟩

section File

variable {m : ModuleSpec} {secs : List RawSection} {fsecs : List FwModuleSection}
  {module : LoadedModule}

/-- All sections are left at first, and nothing has been handled. -/
theorem ModuleSpec.Written.rest (h : m.Written secs) : Rest m 1 secs := by
  refine ⟨h.encodes, h.ordered, fun sec _ h0 => ?_, fun t _ => h.complete t⟩
  exact Nat.pos_of_ne_zero fun hz => h0 (UInt8.toNat_inj.mp hz)

/-- What the part before the memories needs lies before the memories. -/
theorem needs_before {t : UInt8} (h : (m.before 5).Needs t) : m.Needs t ∧ t.toNat < 5 := by
  unfold ModuleSpec.Needs at h
  split at h
  all_goals first | exact ⟨h, by decide⟩ | exact absurd rfl h | exact h.elim

/-- The sections before the memories are those of the part before them. What has to come later than
they do is cut off, and nothing in front of them needs it. -/
theorem rest_before {pre post : List RawSection} {sec : RawSection}
    (h : m.Written (pre ++ sec :: post)) (hsec : sec.type = 5) : Rest (m.before 5) 1 pre := by
  have hall := h.rest
  obtain ⟨hordered, htail, hcross⟩ := List.pairwise_append.mp hall.ordered
  have hlt : ∀ s ∈ pre, s.type ≠ 0 → s.type.toNat < 5 := fun s hs h0 => by
    have := hcross s hs sec List.mem_cons_self h0 (by rw [hsec]; decide)
    rw [hsec] at this
    exact UInt8.lt_iff_toNat_lt.mp this
  refine ⟨fun s hs => ?_, hordered, fun s hs => hall.behind s (List.mem_append_left _ hs),
    fun t ht hneeds => ?_⟩
  · have henc := hall.encodes s (List.mem_append_left _ hs)
    rcases sectionType_cases (type_lt_of_encodes henc) with
      ht | ht | ht | ht | ht | ht | ht | ht | ht | ht | ht | ht
    all_goals
      rw [ht] at henc ⊢
      first | exact henc | exact absurd (hlt s hs (by rw [ht]; decide)) (by rw [ht]; decide)
  · obtain ⟨hneeds, hlt5⟩ := needs_before hneeds
    obtain ⟨s, hs, rfl⟩ := hall.complete t ht hneeds
    rcases List.mem_append.mp hs with hs | hs
    · exact ⟨s, hs, rfl⟩
    · rcases List.mem_cons.mp hs with rfl | hs
      · rw [hsec] at hlt5
        exact absurd hlt5 (by decide)
      · have h0 : s.type ≠ 0 := fun h0 => absurd ht (by rw [h0]; decide)
        have hgt := (List.pairwise_cons.mp htail).1 s hs (by rw [hsec]; decide) h0
        rw [hsec] at hgt
        exact absurd (UInt8.lt_iff_toNat_lt.mp hgt) (lt_asymm hlt5)

/-- A module without memories is handled to the end, and the parse returns `FW_OK`. -/
theorem parse_without_memories (hm : m.Loadable) (hmem : m.memories = []) (hw : m.Written secs)
    (hslices : List.Forall₂ (RawSection.IsSlice mem) secs fsecs) (hsecs : module.sections = fsecs)
    (h : Progress mem m 1 module) :
    ∃ status m', fwModuleParse mem module = .ok (status, m') ∧ m.Loaded mem m' := by
  obtain ⟨m', hhandled, hloaded⟩ := handled_of_rest hm hmem hslices hw.rest h (by decide)
  rw [← hsecs] at hhandled
  obtain ⟨secs', hparse⟩ := parse_of_handled hhandled
  exact ⟨.ok, _, hparse, { hloaded with }⟩

/-- A module with memories is handled up to them, whatever the status of the parse is. The handler
of the memories reads their number and fails, so the sections behind it are not handled. -/
theorem parse_with_memories (hm : (m.before 5).Loadable) (hmem : m.memories ≠ [])
    (hw : m.Written secs) (hslices : List.Forall₂ (RawSection.IsSlice mem) secs fsecs)
    (hsecs : module.sections = fsecs) (h : Progress mem (m.before 5) 1 module) :
    ∃ status m', fwModuleParse mem module = .ok (status, m') ∧ (m.before 5).Loaded mem m' := by
  obtain ⟨sec, hmemsec, hsec⟩ := hw.complete 5 hmem
  obtain ⟨pre, post, rfl⟩ := List.append_of_mem hmemsec
  have hpre := List.forall₂_take pre.length hslices
  have hpost := List.forall₂_drop pre.length hslices
  rw [List.take_left] at hpre
  rw [List.drop_left] at hpost
  obtain ⟨fsec, fpost, ⟨htype, hm₁, hlast⟩, -, hdrop⟩ := List.forall₂_cons_left_iff.mp hpost
  obtain ⟨m₁, hhandled, hloaded⟩ := handled_of_rest hm rfl hpre (rest_before hw hsec) h (by decide)
  have henc := hw.encodes sec hmemsec
  rw [hsec] at henc
  obtain ⟨s', n, hfail, hmod⟩ := memorySection_fails (s := ⟨m₁, fsec⟩) hmem henc ⟨hm₁, hlast⟩
  have hfail' : (fwSectionHandler mem fsec.type ⟨m₁, fsec⟩).res = .ok (none, s') := by
    rw [htype, hsec]
    exact hfail
  obtain ⟨secs', hparse⟩ := parse_of_fails fpost hhandled hfail'
  rw [← hdrop, List.take_append_drop, ← hsecs] at hparse
  refine ⟨.err, { s'.module with sections := secs' }, ?_, ?_⟩
  · rw [fwModuleParse]
    simp only [hparse]
  · rw [hmod]
    exact { hloaded with }

/-- The code section that the loader has found is the one of the module. -/
theorem code_of_lastCode {codeRef : FwStr} (hw : m.Written secs)
    (hslices : List.Forall₂ (RawSection.IsSlice mem) secs fsecs)
    (hcode : lastCode none fsecs = some codeRef) :
    ∃ bs, Vec FuncCode.EncodesCode m.funcs bs ∧ Payload mem codeRef bs := by
  rcases lastCode_eq_some hcode with ⟨hnone, -⟩ | ⟨pre, fsec, post, rfl, htype, -, rfl⟩
  · cases hnone
  · have hpost := List.forall₂_drop pre.length hslices
    rw [List.drop_left] at hpost
    obtain ⟨sec, rest, hslice, -, hdrop⟩ := List.forall₂_cons_right_iff.mp hpost
    obtain ⟨htype', hm₁, hlast⟩ := hslice
    have hsec : sec ∈ secs := List.mem_of_mem_drop (hdrop ▸ List.mem_cons_self)
    have henc := hw.encodes sec hsec
    rw [← htype', htype] at henc
    exact ⟨_, henc, hm₁, hlast⟩

/-- What a file of a module loads as, whether it has memories or not. -/
theorem exists_loaded_of_file {str : FwStr} (hm : m.loadedPart.Loadable) (hw : m.Written secs)
    (hfile : Holds mem str.pos (encodeFile secs))
    (hlast : str.last = str.pos + (encodeFile secs).length) :
    ∃ module, fwModuleLoad mem (some str) = .ok (some module) ∧
      m.loadedPart.Loaded mem module := by
  obtain ⟨module, hload, hsecs⟩ := load_of_encodeFile hw.wellFormed hw.code hfile hlast
  have hslices : List.Forall₂ (RawSection.IsSlice mem) secs module.sections :=
    hsecs ▸ isSlice_layout ((holds_append ..).mp hfile).2
  obtain ⟨bs, hbs, hpay⟩ := code_of_lastCode hw hslices (laid_of_load hload).2
  obtain ⟨-, -, -, fsecs, codeRef, -, -, rfl⟩ := runs_load.mp hload
  obtain ⟨status, m', hparse, hloaded⟩ : ∃ status m', fwModuleParse mem (.new fsecs codeRef) =
      .ok (status, m') ∧ m.loadedPart.Loaded mem m' := by
    rw [ModuleSpec.loadedPart] at hm ⊢
    split at hm
    · next hmem =>
      rw [if_pos hmem]
      exact parse_without_memories hm hmem hw hslices rfl ⟨loaded_new .., fun _ => ⟨bs, hbs, hpay⟩⟩
    · next hmem =>
      rw [if_neg hmem]
      exact parse_with_memories hm hmem hw hslices rfl ⟨loaded_new .., fun _ => ⟨bs, hbs, hpay⟩⟩
  exact ⟨m', load_of_parse hload hparse, hloaded⟩

/-- Nothing that is stored comes behind the memories: no global, export, start function, element or
data segment. -/
def ModuleSpec.EndsWithMemories (m : ModuleSpec) : Prop :=
  m.globals = [] ∧ m.exports = [] ∧ m.start.getD 0 = 0 ∧ m.elems = [] ∧ m.datas = []

/-- When the part that is loaded is all of the module. -/
theorem loaded_iff_of_loadedPart (h : m.loadedPart.Loaded mem module) :
    m.Loaded mem module ↔ m.memories = [] ∨ m.EndsWithMemories := by
  rw [ModuleSpec.loadedPart] at h
  split at h
  · next hmem => exact iff_of_true h (.inl hmem)
  · next hmem =>
    rw [or_iff_right hmem]
    have hnil {α β : Type} {P : α → β → Prop} {as : List α} {cnt : UInt32} {items : List β}
        (hempty : Stores P [] cnt items) (hstores : Stores P as cnt items) : as = [] :=
      List.length_eq_zero_iff.mp (hstores.count.symm.trans hempty.count)
    refine ⟨fun hall => ?_, ?_⟩
    · exact ⟨hnil h.globals hall.globals, hnil h.exports hall.exports,
        hall.start.symm.trans h.start, hnil h.elems hall.elems, hnil h.datas hall.datas⟩
    · rintro ⟨hglobals, hexports, hstart, helems, hdatas⟩
      exact { h with
        globals := hglobals ▸ h.globals
        exports := hexports ▸ h.exports
        start := h.start.trans hstart.symm
        elems := helems ▸ h.elems
        datas := hdatas ▸ h.datas }

/-- A file of a module is loaded, with all of the module before the section of the memories: all of
it comes back if and only if there are no memories, or nothing that is stored behind them. The file
is any that is written for the module (`hw`), with sections left out or not and numbers padded or
not, and lies at the cursor up to its end (`hfile`, `hlast`). The part that is loaded is one that
the loader takes (`hm`): no imported tables, less than 256 parameters and results in a type, type
indices in range, locals that can be counted, a start index up to the number of defined functions,
and segments of at most one function. -/
theorem moduleFile_roundTrip_iff {str : FwStr} (hm : m.loadedPart.Loadable) (hw : m.Written secs)
    (hfile : Holds mem str.pos (encodeFile secs))
    (hlast : str.last = str.pos + (encodeFile secs).length) :
    ∃ module, fwModuleLoad mem (some str) = .ok (some module) ∧
      m.loadedPart.Loaded mem module ∧
        (m.Loaded mem module ↔ m.memories = [] ∨ m.EndsWithMemories) := by
  obtain ⟨module, hload, hloaded⟩ := exists_loaded_of_file hm hw hfile hlast
  exact ⟨module, hload, hloaded, loaded_iff_of_loadedPart hloaded⟩

end File

/-- A function that calls the second one. -/
def callSecond : FuncCode := ⟨0, [], [0x10, 1, 0x0b]⟩

/-- A function of an empty block and the constant 7. -/
def blockSeven : FuncCode := ⟨0, [], [0x02, 0x40, 0x0b, 0x41, 7, 0x0b]⟩

/-- A module of both, that exports the first one as `f`. -/
def twoFuncs : ModuleSpec where
  types := [⟨[], []⟩]
  imports := []
  funcs := [callSecond, blockSeven]
  tables := []
  memories := []
  globals := []
  exports := [⟨[0x66], 0, 0⟩]
  start := none
  elems := []
  datas := []

/-- Its sections, with a custom section between them. -/
def twoFuncsSections : List RawSection :=
  [⟨1, [4], [1, 0x60, 0, 0]⟩, ⟨0, [1], [0xff]⟩, ⟨3, [3], [2, 0, 0]⟩,
    ⟨7, [5], [1, 1, 0x66, 0, 0]⟩,
    ⟨10, [14], [2, 4, 0, 0x10, 1, 0x0b, 7, 0, 0x02, 0x40, 0x0b, 0x41, 7, 0x0b]⟩]

theorem twoFuncs_loadable : twoFuncs.Loadable where
  types := List.forall_mem_singleton.mpr ⟨by decide, by decide⟩
  imports := List.forall_mem_nil _
  typeidx := by decide
  locals := by decide
  start _ h := by cases h
  elems := List.forall_mem_nil _

theorem twoFuncs_written : twoFuncs.Written twoFuncsSections := by
  have hgroups : Vec EncodesGroup [] [0] := ⟨[0], [], by decide, .nil, rfl⟩
  have htype : TypeSpec.Encodes ⟨[], []⟩ [0x60, 0, 0] := ⟨[0], [0], by decide, by decide, rfl⟩
  have htypes : Vec TypeSpec.Encodes [⟨[], []⟩] [1, 0x60, 0, 0] :=
    ⟨[1], _, by decide, .cons htype .nil, rfl⟩
  have hidx : callSecond.EncodesType [0] := (by decide : Spells 32 0 [0])
  have hidx' : blockSeven.EncodesType [0] := (by decide : Spells 32 0 [0])
  have hfuncs : Vec FuncCode.EncodesType [callSecond, blockSeven] [2, 0, 0] :=
    ⟨[2], _, by decide, .cons hidx (.cons hidx' .nil), rfl⟩
  have hexport : ExportSpec.Encodes ⟨[0x66], 0, 0⟩ [1, 0x66, 0, 0] :=
    ⟨[1], [0], by decide, by decide, rfl⟩
  have hexports : Vec ExportSpec.Encodes [⟨[0x66], 0, 0⟩] [1, 1, 0x66, 0, 0] :=
    ⟨[1], _, by decide, .cons hexport .nil, rfl⟩
  have hcode : callSecond.EncodesCode [4, 0, 0x10, 1, 0x0b] :=
    ⟨[4], [0], hgroups, by decide, rfl⟩
  have hcode' : blockSeven.EncodesCode [7, 0, 0x02, 0x40, 0x0b, 0x41, 7, 0x0b] :=
    ⟨[7], [0], hgroups, by decide, rfl⟩
  have hcodes : Vec FuncCode.EncodesCode [callSecond, blockSeven]
      [2, 4, 0, 0x10, 1, 0x0b, 7, 0, 0x02, 0x40, 0x0b, 0x41, 7, 0x0b] :=
    ⟨[2], _, by decide, .cons hcode (.cons hcode' .nil), rfl⟩
  refine ⟨?_, ?_, by decide, fun id hneeds => ?_, by decide⟩
  · simp only [twoFuncsSections, List.forall_mem_cons]
    exact ⟨⟨by decide, by decide⟩, ⟨by decide, by decide⟩, ⟨by decide, by decide⟩,
      ⟨by decide, by decide⟩, ⟨by decide, by decide⟩, List.forall_mem_nil _⟩
  · simp only [twoFuncsSections, List.forall_mem_cons]
    exact ⟨htypes, trivial, hfuncs, hexports, hcodes, List.forall_mem_nil _⟩
  · unfold ModuleSpec.Needs at hneeds
    split at hneeds
    all_goals first | exact absurd rfl hneeds | exact hneeds.elim | decide

/-- Everything of it comes back: it has no memory. -/
theorem twoFuncs_roundTrip :
    ∃ module, fwModuleLoad (memOf (encodeFile twoFuncsSections))
        (some ⟨0, (encodeFile twoFuncsSections).length⟩) = .ok (some module) ∧
      twoFuncs.Loaded (memOf (encodeFile twoFuncsSections)) module := by
  obtain ⟨module, hload, -, hiff⟩ := @moduleFile_roundTrip_iff _ twoFuncs _ ⟨0, _⟩ twoFuncs_loadable
    twoFuncs_written (holds_memOf _) (Nat.zero_add _).symm
  exact ⟨module, hload, hiff.mpr (.inl rfl)⟩

end FastWasm
