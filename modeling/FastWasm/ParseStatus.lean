import FastWasm.Payloads

/-!
# The status of the parse

Every handler sets its count before it decodes the entries, and `fw_module_load` drops the status of
`fw_module_parse`: it returns the module also when a handler has failed halfway, with a count for
entries that nobody has decoded.

Which files come out whole can be said in bytes. The handlers return `FW_OK` one after the other
exactly when each section fits behind the ones before it (`handled_iff_fits`), and loading is all or
nothing exactly for the files whose sections fit and leave the counts settled (`load_whole_iff`).

The bytes are described without the handlers, by what a payload has to look like behind given
counts. A section that fits is one that its handler takes, and the counts that it leaves are those
of the module that the handler leaves, so the two go on together from section to section. Two more
things can go wrong when all the handlers return `FW_OK`. A type section that says 0 sets the count
and leaves the array, and the second pass over the imports may find other kinds than the first;
`Counts.Settled` rules them out.
-/

namespace FastWasm

open Logged (Fallible Part)
open Logged.Fallible

variable {mem : Mem}

/-! ## Runs of the handlers

The status of the parse is that of the first handler that fails, so `FW_OK` is a run of all of them.
-/

/-- The handlers of the sections return `FW_OK` one after the other, from a module to another. -/
inductive Handled (mem : Mem) : LoadedModule → List FwModuleSection → LoadedModule → Prop
  /-- no section -/
  | nil (m : LoadedModule) : Handled mem m [] m
  /-- one section, and the ones behind it -/
  | cons {m m' : LoadedModule} {sec : FwModuleSection} {rest : List FwModuleSection}
    {s : LoadState} (head : Runs (fwSectionHandler mem sec.type) ⟨m, sec⟩ ⟨⟩ s)
    (tail : Handled mem s.module rest m') : Handled mem m (sec :: rest) m'

theorem handled_append {m m' : LoadedModule} {pre post : List FwModuleSection} :
    Handled mem m (pre ++ post) m' ↔ ∃ m₁, Handled mem m pre m₁ ∧ Handled mem m₁ post m' := by
  induction pre generalizing m with
  | nil =>
    refine ⟨?_, ?_⟩
    · exact fun h => ⟨m, .nil m, h⟩
    · rintro ⟨_, ⟨⟩, h⟩
      exact h
  | cons sec pre ih =>
    refine ⟨?_, ?_⟩
    · rintro (_ | ⟨head, tail⟩)
      obtain ⟨m₁, h, h'⟩ := ih.mp tail
      exact ⟨m₁, .cons head h, h'⟩
    · rintro ⟨m₁, _ | ⟨head, tail⟩, h'⟩
      exact .cons head (ih.mpr ⟨m₁, tail, h'⟩)

/-- What every handler preserves, the handlers preserve. -/
theorem Handled.induct {P : LoadedModule → Prop} {m m' : LoadedModule}
    {secs : List FwModuleSection} (h : Handled mem m secs m')
    (step : ∀ (s s' : LoadState), s.sec ∈ secs →
      Runs (fwSectionHandler mem s.sec.type) s ⟨⟩ s' → P s.module → P s'.module) (hm : P m) :
    P m' := by
  induction h with
  | nil => exact hm
  | cons head tail ih =>
    exact ih (fun s s' hs => step s s' (List.mem_cons_of_mem _ hs))
      (step ⟨_, _⟩ _ List.mem_cons_self head hm)

/-- The loop of the parse ends with `FW_OK` when every handler does, by induction on the sections.
The first handler that fails or halts ends the loop, and the module that it leaves is handed to no
other one. -/
theorem parseSections_ok_iff {secs : List FwModuleSection} {m m' : LoadedModule} :
    (∃ secs', (fwParseSections mem secs m).res = .ok ((.ok, secs'), m')) ↔
      Handled mem m secs m' := by
  induction secs generalizing m with
  | nil =>
    refine ⟨?_, ?_⟩
    · rintro ⟨secs', h⟩
      obtain ⟨-, rfl⟩ := Prod.mk.inj (Except.ok.inj h)
      exact .nil m
    · rintro ⟨⟩
      exact ⟨[], rfl⟩
  | cons sec rest ih =>
    rw [fwParseSections]
    rcases hrun : (fwSectionHandler mem sec.type ⟨m, sec⟩).res with e | ⟨_ | u, s⟩
    · simp only [hrun]
      refine iff_of_false (by rintro ⟨_, h⟩; cases h) ?_
      rintro (_ | ⟨head, -⟩)
      cases hrun.symm.trans head
    · simp only [hrun]
      refine iff_of_false (by rintro ⟨_, h⟩; cases h) ?_
      rintro (_ | ⟨head, -⟩)
      cases hrun.symm.trans head
    · simp only [hrun]
      refine ⟨?_, ?_⟩
      · rintro ⟨secs', h⟩
        rcases hrest : (fwParseSections mem rest s.module).res with e | ⟨⟨status, rest'⟩, m₁⟩
        · simp only [hrest] at h
          cases h
        · simp only [hrest] at h
          cases h
          exact .cons hrun (ih.mp ⟨rest', hrest⟩)
      · rintro (_ | ⟨head, tail⟩)
        obtain ⟨-, rfl⟩ := Runs.unique hrun head
        obtain ⟨rest', hrest⟩ := ih.mpr tail
        simp only [hrest]
        exact ⟨_, rfl⟩

/-- When `fw_module_parse` returns `FW_OK`, every handler has. -/
theorem handled_of_parse {loaded m : LoadedModule}
    (h : fwModuleParse mem loaded = .ok (.ok, m)) : ∃ m', Handled mem loaded loaded.sections m' ∧
      m = { m' with sections := m.sections } := by
  rw [fwModuleParse] at h
  rcases hrun : (fwParseSections mem loaded.sections loaded).res with e | ⟨⟨status, secs⟩, m'⟩
  · simp only [hrun] at h
    cases h
  · simp only [hrun] at h
    cases h
    exact ⟨m', parseSections_ok_iff.mp ⟨secs, hrun⟩, rfl⟩

/-- Handlers that all return `FW_OK` make `fw_module_parse` return it. -/
theorem parse_of_handled {loaded m' : LoadedModule} (h : Handled mem loaded loaded.sections m') :
    ∃ secs, fwModuleParse mem loaded = .ok (.ok, { m' with sections := secs }) := by
  obtain ⟨secs, hrun⟩ := parseSections_ok_iff.mpr h
  refine ⟨secs, ?_⟩
  rw [fwModuleParse]
  simp only [hrun]

/-! ## What a handler leaves

One constructor for each kind of section, with the module that its handler leaves as a function of
what it has read. -/

/-- What a handler that returns `FW_OK` can make of a module, by the type of its section. -/
inductive SectionDone (mem : Mem) (m : LoadedModule) (d : FwStr) : UInt8 → LoadedModule → Prop
  /-- the module is left alone -/
  | same {t : UInt8} : SectionDone mem m d t m
  /-- the number of types, and the types unless it is 0 -/
  | types {n : UInt32} {d₁ : FwStr} {ts : List FwModuleType}
    (count : Runs (fwStrLebGetu32 mem) d n d₁) (length : ts.length = n.toNat) :
    SectionDone mem m d 1
      { m with typeCnt := n, type := if n ≠ 0 then some ts else m.type }
  /-- the imports -/
  | imports {n : UInt32} {d₁ d₂ d₃ : FwStr} {kinds : List (Option FwImportKind)}
    {imps : List LoadedImport} (count : Runs (fwStrLebGetu32 mem) d n d₁) (ne_zero : n ≠ 0)
    (seen : Reads (fwImportSeen mem) d₁ kinds d₂) (seen_length : kinds.length = n.toNat)
    (read : Reads (fwImportEntry mem) d₁ imps d₃) (read_length : imps.length = n.toNat)
    (room : (m.countImports kinds).allocImports.Room imps) : SectionDone mem m d 2
      ((m.countImports kinds).allocImports.addImports imps)
  /-- no function -/
  | code {c : FwStr} : SectionDone mem m d 3 { m with codeRef := c }
  /-- the functions, from their type indices and their code -/
  | funcs {n : UInt32} {c : FwStr} {types : List FwModuleType} {d₁ d₂ : FwStr} {idxs : List UInt32}
    {entries : List (List UInt8 × UInt32 × FwStr)} (count : Runs (fwStrLebGetu32 mem) d n d₁)
    (ne_zero : n ≠ 0) (type : m.type = some types) (read : Reads (fwStrLebGetu32 mem) d₁ idxs d₂)
    (length : idxs.length = n.toNat) (le : ∀ idx ∈ idxs, idx ≤ m.typeCnt)
    (code_length : entries.length = n.toNat) : SectionDone mem m d 3
      { m with codeRef := c, funcCnt := n, funcs := funcsOf types idxs entries }
  /-- the tables -/
  | tables {n : UInt32} {es : List FwModuleTable} (length : es.length = n.toNat) :
    SectionDone mem m d 4 { m with tableCnt := n, tables := es }
  /-- the globals -/
  | globals {n : UInt32} {es : List FwModuleGlobal} (length : es.length = n.toNat) :
    SectionDone mem m d 6 { m with globalCnt := n, globals := es }
  /-- the exports -/
  | exports {n : UInt32} {es : List LoadedExport} (length : es.length = n.toNat) :
    SectionDone mem m d 7 { m with exportCnt := n, exports := es }
  /-- a start function other than the first one -/
  | start {idx : UInt32} {d₁ : FwStr} (read : Runs (fwStrLebGetu32 mem) d idx d₁)
    (ne_zero : idx ≠ 0) (le : idx ≤ m.funcCnt) : SectionDone mem m d 8 { m with startFunc := idx }
  /-- the element segments -/
  | elems {n : UInt32} {es : List FwModuleElem} (length : es.length = n.toNat) :
    SectionDone mem m d 9 { m with elemCnt := n, elems := es }
  /-- the data segments -/
  | datas {n : UInt32} {es : List FwModuleData} (length : es.length = n.toNat) :
    SectionDone mem m d 11 { m with dataCnt := n, datas := es }

/-! ## Sections that fit

Each handler is compared with the bytes that it takes. Its reads are covered by the pieces of its
payload, and what it leaves has the counts that the piece says. -/

/-- What a module leaves for the sections behind the ones that it was made from. -/
def Counts.of (m : LoadedModule) : Counts where
  typeCnt := m.typeCnt
  types := m.type
  funcCnt := m.funcCnt
  funcs := m.funcs.map (·.functype)
  code := m.codeRef
  start := m.startFunc
  counted := m.importCnt
  stored k := (m.imports k).length

/-- Any counts are left by some module, so a question about counts can be asked of a module. -/
theorem Counts.exists_of (c : Counts) : ∃ m, Counts.of m = c := by
  refine ⟨{ LoadedModule.new [] c.code with
    typeCnt := c.typeCnt, type := c.types, funcCnt := c.funcCnt,
    funcs := c.funcs.map fun t => ⟨[], 0, t, c.code⟩, startFunc := c.start,
    importCnt := c.counted, imports := fun k => List.replicate (c.stored k) ⟨[], [], .func 0⟩ }, ?_⟩
  simp [of, LoadedModule.new, Function.comp_def]

/-- A payload is a count and that many entries exactly when it can be read so. -/
theorem vecAt_iff {α : Type} {entry : Parse α} {E : ℕ → Stretch} (hE : CoversAny entry E)
    {d : FwStr} : VecAt mem d.last (E d.last) d.pos d.last ↔
      ∃ n d₁, Runs (fwStrLebGetu32 mem) d n d₁ ∧ ∃ es, es.length = n.toNat ∧
        ∃ d₂, Reads entry d₁ es d₂ ∧ d₂.pos = d₂.last := by
  simp only [VecAt, covers_getu32.runs_iff]
  constructor
  · rintro ⟨n, r, hn, hseq⟩
    obtain ⟨es, hlen, hes⟩ := (hE.any_seq n.toNat ⟨r, d.last⟩ ⟨d.last, d.last⟩).mpr ⟨rfl, hseq⟩
    exact ⟨n, ⟨r, d.last⟩, ⟨rfl, hn⟩, es, hlen, _, hes, rfl⟩
  · rintro ⟨n, d₁, ⟨hlast, hn⟩, es, hlen, d₂, hes, hend⟩
    obtain ⟨hlast', hseq⟩ := (hE.any_seq n.toNat d₁ d₂).mp ⟨es, hlen, hes⟩
    rw [hend, hlast', hlast] at hseq
    exact ⟨n, d₁.pos, hn, hseq⟩

/-- A handler that reads one vector leaves the counts as they are. -/
theorem vecSection_iff {α : Type} {cnt : Part LoadedModule UInt32}
    {items : Part LoadedModule (List α)} {entry : Parse α} {E : ℕ → Stretch}
    (hE : CoversAny entry E) (hof : ∀ n es m, Counts.of (items.put es (cnt.put n m)) = .of m)
    {m : LoadedModule} {sec : FwModuleSection} {c' : Counts} :
    (∃ s, Runs (fwVecSection mem cnt items entry) ⟨m, sec⟩ ⟨⟩ s ∧ c' = .of s.module) ↔
      VecAt mem sec.data.last (E sec.data.last) sec.data.pos sec.data.last ∧ c' = .of m := by
  rw [vecAt_iff hE]
  simp only [runs_vecSection]
  constructor
  · rintro ⟨s, ⟨n, d, hn, ⟨h0, es, hlen, d', hes, hend, rfl⟩ | ⟨h0, hend, rfl⟩⟩, rfl⟩
    · exact ⟨⟨n, d, hn, es, hlen, d', hes, hend⟩, hof n es m⟩
    · obtain rfl := not_not.mp h0
      exact ⟨⟨0, d, hn, [], rfl, d, .nil d, hend⟩, rfl⟩
  · rintro ⟨⟨n, d, hn, es, hlen, d', hes, hend⟩, rfl⟩
    by_cases h0 : n = 0
    · subst h0
      obtain rfl := List.length_eq_zero_iff.mp hlen
      rw [reads_nil.mp hes] at hend
      exact ⟨_, ⟨0, d, hn, .inr ⟨by simp, hend, rfl⟩⟩, rfl⟩
    · exact ⟨_, ⟨n, d, hn, .inl ⟨h0, es, hlen, d', hes, hend, rfl⟩⟩, (hof n es m).symm⟩

/-- The section types, one by one. -/
theorem sectionType_cases {t : UInt8} (h : t < fwSectionTypeMax) :
    t = 0 ∨ t = 1 ∨ t = 2 ∨ t = 3 ∨ t = 4 ∨ t = 5 ∨ t = 6 ∨ t = 7 ∨ t = 8 ∨ t = 9 ∨ t = 10 ∨
      t = 11 := by
  have ht : t.toNat < 12 := UInt8.lt_iff_toNat_lt.mp h
  simp only [← UInt8.toNat_inj, UInt8.reduceToNat]
  omega

/-- There is no handler for another type. -/
theorem type_lt_of_runs {t : UInt8} {s s' : LoadState}
    (h : Runs (fwSectionHandler mem t) s ⟨⟩ s') : t < fwSectionTypeMax := by
  rw [fwSectionHandler] at h
  unfold commonSectionHandler at h
  split at h
  all_goals first | exact (by decide) | exact (runs_halt.mp h).elim

/-- A vector section leaves the module alone, or sets a count and that many entries. -/
theorem done_of_vec {α : Type} {cnt : Part LoadedModule UInt32}
    {items : Part LoadedModule (List α)} {entry : Parse α} {s s' : LoadState}
    (h : Runs (fwVecSection mem cnt items entry) s ⟨⟩ s') {P : LoadedModule → Prop}
    (same : P s.module)
    (set : ∀ (n : UInt32) (es : List α), es.length = n.toNat →
      P (items.put es (cnt.put n s.module))) : P s'.module := by
  obtain ⟨n, d, -, ⟨-, es, hlen, d', -, -, rfl⟩ | ⟨-, -, rfl⟩⟩ := runs_vecSection.mp h
  · exact set n es hlen
  · exact same

/-- Every handler that returns `FW_OK` leaves one of these modules, by one case for each type of
a section. The handlers that are loops over a vector are covered by one lemma; custom sections, the
memory section and the code section change nothing. -/
theorem done_of_runs {s s' : LoadState} (h : Runs (fwSectionHandler mem s.sec.type) s ⟨⟩ s') :
    SectionDone mem s.module s.sec.data s.sec.type s'.module := by
  obtain ⟨m, ⟨t, d, free⟩⟩ := s
  rcases sectionType_cases (type_lt_of_runs h) with
    rfl | rfl | rfl | rfl | rfl | rfl | rfl | rfl | rfl | rfl | rfl | rfl
  · obtain rfl := (runs_pure.mp h).2
    exact .same
  · obtain ⟨n, d₁, hn, ⟨h0, ts, hlen, d₂, -, -, rfl⟩ | ⟨h0, -, rfl⟩⟩ := runs_sectionType.mp h
    · have := SectionDone.types (m := m) hn hlen
      rwa [if_pos h0] at this
    · have hlen : ([] : List FwModuleType).length = n.toNat := by rw [not_not.mp h0]; rfl
      have := SectionDone.types (m := m) hn hlen
      rwa [if_neg h0] at this
  · obtain ⟨n, d₁, hn, ⟨h0, kinds, hkinds, d₂, hseen, imps, himps, d₃, hentry, hroom, -, rfl⟩ |
      ⟨-, -, rfl⟩⟩ := runs_sectionImport.mp h
    · exact .imports hn h0 hseen hkinds hentry himps hroom
    · exact .same
  · obtain ⟨n, d₁, c, hn, -, ⟨h0, types, ht, idxs, d₂, hd, hidxs, hle, entries, c', -, he, -, rfl⟩ |
      ⟨-, -, rfl⟩⟩ := runs_sectionFunc.mp h
    · exact .funcs hn h0 ht hd hidxs hle he
    · exact .code
  · exact done_of_vec h .same fun _ _ => .tables
  · obtain ⟨d₁, -, -, rfl⟩ := runs_sectionMemory.mp h
    exact .same
  · exact done_of_vec h .same fun _ _ => .globals
  · exact done_of_vec h .same fun _ _ => .exports
  · obtain ⟨idx, d₁, hidx, hle, -, rfl⟩ := runs_sectionStart.mp h
    by_cases h0 : idx = 0
    · rw [if_neg (not_not.mpr h0)]
      exact .same
    · rw [if_pos h0]
      exact .start hidx h0 hle
  · exact done_of_vec h .same fun _ _ => .elems
  · obtain rfl := (runs_pure.mp h).2
    exact .same
  · exact done_of_vec h .same fun _ _ => .datas

theorem length_funcsOf {types : List FwModuleType} {idxs : List UInt32}
    {entries : List (List UInt8 × UInt32 × FwStr)} (h : idxs.length = entries.length) :
    (funcsOf types idxs entries).length = idxs.length := by
  rw [funcsOf, List.length_zipWith, h, Nat.min_self]

theorem functypes_funcsOf {types : List FwModuleType} {idxs : List UInt32}
    {entries : List (List UInt8 × UInt32 × FwStr)} (hlen : idxs.length = entries.length) :
    (funcsOf types idxs entries).map LoadedFunc.functype =
      idxs.map fun idx => types[idx.toNat]? := by
  induction idxs generalizing entries with
  | nil => rfl
  | cons idx idxs ih =>
    cases entries with
    | nil => simp at hlen
    | cons e entries =>
      rw [funcsOf, List.zipWith_cons_cons, List.map_cons, List.map_cons]
      exact congrArg₂ _ rfl (ih (by simpa using hlen))

theorem length_importsOf (k : FwImportKind) (imps : List LoadedImport) :
    (importsOf k imps).length = (imps.map (·.desc.kind)).count k := by
  rw [importsOf, List.count_eq_countP, List.countP_map, List.countP_eq_length_filter]
  congr 2

/-- The numbers of imports after both passes, for each kind. -/
theorem length_addImports (m : LoadedModule) (seen : List (Option FwImportKind))
    (imps : List LoadedImport) (k : FwImportKind) :
    ((m.countImports seen).allocImports.imports k).length + (importsOf k imps).length =
      (Counts.of m).store ((Counts.of m).count seen) (imps.map (·.desc.kind)) k := by
  have halloc : (m.countImports seen).allocImports.imports k =
      if (Counts.of m).count seen k ≠ 0 then [] else m.imports k := rfl
  rw [length_importsOf, halloc, Counts.store, apply_ite List.length, List.length_nil]
  rfl

theorem of_addImports (m : LoadedModule) (seen : List (Option FwImportKind))
    (imps : List LoadedImport) : Counts.of ((m.countImports seen).allocImports.addImports imps) =
      { Counts.of m with
        counted := (Counts.of m).count seen,
        stored := (Counts.of m).store ((Counts.of m).count seen) (imps.map (·.desc.kind)) } := by
  have hstored := fun k => length_addImports m seen imps k
  simp only [Counts.of, LoadedModule.addImports, Counts.mk.injEq, List.length_append, hstored]
  exact ⟨rfl, rfl, rfl, rfl, rfl, rfl, rfl, trivial⟩

section

variable {m : LoadedModule} {sec : FwModuleSection} {s : LoadState} {c' : Counts}

theorem typesFit_of_runs (h : Runs (fwModuleSectionType mem) ⟨m, sec⟩ ⟨⟩ s) :
    Fits mem (.of m) sec.data 1 (.of s.module) := by
  obtain ⟨n, d, hn, ⟨h0, ts, hlen, d', hts, hend, rfl⟩ | ⟨h0, hend, rfl⟩⟩ := runs_sectionType.mp h
  · obtain ⟨hlast, hn⟩ := covers_getu32.runs_iff.mp hn
    obtain ⟨hlast', hseq⟩ := (covers_type.seq ts d d').mp ⟨ts, List.map_id ts, hts⟩
    rw [hend, hlast', hlast] at hseq
    have := Fits.types (c := .of m) hn hlen hseq
    rwa [if_pos h0] at this
  · obtain ⟨hlast, hn⟩ := covers_getu32.runs_iff.mp hn
    obtain rfl := not_not.mp h0
    exact Fits.types (c := .of m) hn (rfl : [].length = _) (hend.trans hlast)

theorem funcsFit_of_runs (h : Runs (fwModuleSectionFunc mem) ⟨m, sec⟩ ⟨⟩ s) :
    Fits mem (.of m) sec.data 3 (.of s.module) := by
  obtain ⟨n, d, c, hn, hc, ⟨h0, types, htypes, idxs, d', hidxs, hlen, hle, entries, c', hentries,
    hlen', hend, rfl⟩ | ⟨h0, hend, rfl⟩⟩ := runs_sectionFunc.mp h
  · obtain ⟨hlast, hn⟩ := covers_getu32.runs_iff.mp hn
    obtain ⟨hclast, hcode⟩ := covers_getu32.runs_iff.mp hc
    obtain ⟨hlast', hseq⟩ := (covers_getu32.seq idxs d d').mp ⟨idxs, List.map_id idxs, hidxs⟩
    obtain ⟨hclast', hcseq⟩ := (covers_code.any_seq n.toNat c c').mp ⟨entries, hlen', hentries⟩
    rw [hend, hlast', hlast] at hseq
    rw [hclast] at hclast' hcseq
    have := Fits.funcs (c := .of m) hn h0 hcode htypes hlen hseq hle hcseq
    rw [← functypes_funcsOf (hlen.trans hlen'.symm)] at this
    obtain ⟨q, last⟩ := c'
    obtain rfl : last = m.codeRef.last := hclast'
    exact this
  · obtain ⟨hlast, hn⟩ := covers_getu32.runs_iff.mp hn
    obtain ⟨hclast, hcode⟩ := covers_getu32.runs_iff.mp hc
    obtain rfl := not_not.mp h0
    rw [hend, hlast] at hn
    obtain ⟨q, last⟩ := c
    obtain rfl : last = m.codeRef.last := hclast
    exact .noFuncs hn hcode

theorem importsFit_of_runs (h : Runs (fwModuleSectionImport mem) ⟨m, sec⟩ ⟨⟩ s) :
    Fits mem (.of m) sec.data 2 (.of s.module) := by
  obtain ⟨n, d, hn, ⟨h0, kinds, hkinds, d₁, hseen, imps, himps, d₂, hentries, hroom, hend, rfl⟩ |
    ⟨h0, hend, rfl⟩⟩ := runs_sectionImport.mp h
  · obtain ⟨hlast, hn⟩ := covers_getu32.runs_iff.mp hn
    obtain ⟨-, hseq⟩ := (covers_importSeen.seq kinds d d₁).mp ⟨kinds, List.map_id kinds, hseen⟩
    obtain ⟨hlast', hseq'⟩ := (covers_importEntry.seq _ d d₂).mp ⟨imps, rfl, hentries⟩
    rw [hlast] at hseq
    rw [hend, hlast', hlast] at hseq'
    have hroom : ∀ k ∈ imps.map (·.desc.kind), (Counts.of m).store ((Counts.of m).count kinds)
        (imps.map (·.desc.kind)) k ≤ ((Counts.of m).count kinds k).toNat := by
      intro k hk
      obtain ⟨imp, himp, rfl⟩ := List.mem_map.mp hk
      rw [← length_addImports]
      exact hroom imp himp
    have := Fits.imports (c := .of m) hn h0 hkinds hseq (by rwa [List.length_map]) hseq' hroom
    rw [← of_addImports] at this
    exact this
  · obtain ⟨hlast, hn⟩ := covers_getu32.runs_iff.mp hn
    obtain rfl := not_not.mp h0
    rw [hend, hlast] at hn
    exact .noImports hn

/-- A handler that returns `FW_OK` was given a section that fits. By cases on the type: what the
readers of the handler accept is turned into the grammar of the payload, which does not mention
them. -/
theorem fits_of_runs (h : Runs (fwSectionHandler mem sec.type) ⟨m, sec⟩ ⟨⟩ s) :
    Fits mem (.of m) sec.data sec.type (.of s.module) := by
  obtain ⟨t, d, free⟩ := sec
  have hvec {α : Type} {cnt : Part LoadedModule UInt32} {items : Part LoadedModule (List α)}
      {entry : Parse α} {E : ℕ → Stretch} (hE : CoversAny entry E)
      (hof : ∀ n es m, Counts.of (items.put es (cnt.put n m)) = .of m)
      (h : Runs (fwVecSection mem cnt items entry) ⟨m, ⟨t, d, free⟩⟩ ⟨⟩ s) :
      VecAt mem d.last (E d.last) d.pos d.last ∧ Counts.of s.module = .of m :=
    (vecSection_iff hE hof).mp ⟨s, h, rfl⟩
  rcases sectionType_cases (type_lt_of_runs h) with
    rfl | rfl | rfl | rfl | rfl | rfl | rfl | rfl | rfl | rfl | rfl | rfl
  · obtain rfl := (runs_pure.mp h).2
    exact .custom
  · exact typesFit_of_runs h
  · exact importsFit_of_runs h
  · exact funcsFit_of_runs h
  · obtain ⟨hvec, heq⟩ := hvec covers_table (fun _ _ _ => rfl) h
    exact heq ▸ .tables hvec
  · obtain ⟨d₁, hn, hend, rfl⟩ := runs_sectionMemory.mp h
    obtain ⟨hlast, hn⟩ := covers_getu32.runs_iff.mp hn
    rw [hend, hlast] at hn
    exact .memories hn
  · obtain ⟨hvec, heq⟩ := hvec covers_global (fun _ _ _ => rfl) h
    exact heq ▸ .globals hvec
  · obtain ⟨hvec, heq⟩ := hvec covers_export (fun _ _ _ => rfl) h
    exact heq ▸ .exports hvec
  · obtain ⟨idx, d₁, hidx, hle, hend, rfl⟩ := runs_sectionStart.mp h
    obtain ⟨hlast, hidx⟩ := covers_getu32.runs_iff.mp hidx
    rw [hend, hlast] at hidx
    have := Fits.start (c := .of m) hidx hle
    split_ifs at this ⊢
    · exact this
    · exact this
  · obtain ⟨hvec, heq⟩ := hvec covers_elem (fun _ _ _ => rfl) h
    exact heq ▸ .elems hvec
  · obtain rfl := (runs_pure.mp h).2
    exact .code
  · obtain ⟨hvec, heq⟩ := hvec covers_data (fun _ _ _ => rfl) h
    exact heq ▸ .datas hvec

/-- Types that fit are read, and become the types of the module. -/
theorem runs_of_typesFit {n : UInt32} {p : ℕ} {ts : List FwModuleType}
    (hn : U32At mem sec.data.last n sec.data.pos p) (hlen : ts.length = n.toNat)
    (hseq : Stretch.Seq (TypeAt mem sec.data.last) ts p sec.data.last) :
    ∃ s, Runs (fwModuleSectionType mem) ⟨m, sec⟩ ⟨⟩ s ∧ Counts.of s.module =
      { Counts.of m with typeCnt := n, types := if n ≠ 0 then some ts else m.type } := by
  have hreads := covers_type.reads hseq
  by_cases h0 : n = 0
  · subst h0
    obtain rfl := List.length_eq_zero_iff.mp hlen
    obtain rfl : sec.data.last = p := congrArg FwStr.pos (reads_nil.mp hreads)
    exact ⟨_, runs_sectionType.mpr ⟨0, _, covers_getu32.runs hn, .inr ⟨by simp, rfl, rfl⟩⟩, rfl⟩
  · refine ⟨_, runs_sectionType.mpr
      ⟨n, _, covers_getu32.runs hn, .inl ⟨h0, ts, hlen, _, hreads, rfl, rfl⟩⟩, ?_⟩
    rw [if_pos h0]
    rfl

/-- Imports that fit are read by both passes, and there is room for them. -/
theorem runs_of_importsFit {n : UInt32} {p q : ℕ} {seen : List (Option FwImportKind)}
    {kinds : List FwImportKind} (hn : U32At mem sec.data.last n sec.data.pos p) (h0 : n ≠ 0)
    (hseen : seen.length = n.toNat) (hskim : Stretch.Seq (ImportSeenAt mem sec.data.last) seen p q)
    (hlen : kinds.length = n.toNat)
    (hseq : Stretch.Seq (ImportAt mem sec.data.last) kinds p sec.data.last)
    (hroom : ∀ k ∈ kinds, (Counts.of m).store ((Counts.of m).count seen) kinds k ≤
      ((Counts.of m).count seen k).toNat) :
    ∃ s, Runs (fwModuleSectionImport mem) ⟨m, sec⟩ ⟨⟩ s ∧ Counts.of s.module =
      { Counts.of m with
        counted := (Counts.of m).count seen,
        stored := (Counts.of m).store ((Counts.of m).count seen) kinds } := by
  obtain ⟨imps, rfl, hreads⟩ := (covers_importEntry.seq kinds ⟨p, sec.data.last⟩
    ⟨sec.data.last, sec.data.last⟩).mpr ⟨rfl, hseq⟩
  refine ⟨_, runs_sectionImport.mpr ⟨n, _, covers_getu32.runs hn, .inl ⟨h0, seen, hseen, _,
    covers_importSeen.reads hskim, imps, by rwa [List.length_map] at hlen, _, hreads, ?_, rfl,
    rfl⟩⟩, of_addImports m seen imps⟩
  intro imp himp
  rw [length_addImports]
  exact hroom _ (List.mem_map_of_mem himp)

/-- Functions that fit are read from both sections. -/
theorem runs_of_funcsFit {n : UInt32} {p q r : ℕ} {types : List FwModuleType} {idxs : List UInt32}
    (hn : U32At mem sec.data.last n sec.data.pos p) (h0 : n ≠ 0)
    (hcode : U32At mem m.codeRef.last n m.codeRef.pos q) (htypes : m.type = some types)
    (hlen : idxs.length = n.toNat)
    (hseq : Stretch.Seq (U32At mem sec.data.last) idxs p sec.data.last)
    (hle : ∀ idx ∈ idxs, idx ≤ m.typeCnt)
    (hcodes : Stretch.Seq (fun _ => CodeAt mem m.codeRef.last) (List.replicate n.toNat ()) q r) :
    ∃ s, Runs (fwModuleSectionFunc mem) ⟨m, sec⟩ ⟨⟩ s ∧ Counts.of s.module =
      { Counts.of m with
        funcCnt := n, funcs := idxs.map (types[·.toNat]?), code := ⟨r, m.codeRef.last⟩ } := by
  obtain ⟨entries, hlen', hentries⟩ :=
    (covers_code.any_seq n.toNat ⟨q, m.codeRef.last⟩ ⟨r, m.codeRef.last⟩).mpr ⟨rfl, hcodes⟩
  refine ⟨_, runs_sectionFunc.mpr ⟨n, _, _, covers_getu32.runs hn, covers_getu32.runs hcode,
    .inl ⟨h0, types, htypes, idxs, _, covers_getu32.reads hseq, hlen, hle, entries, _, hentries,
      hlen', rfl, rfl⟩⟩, ?_⟩
  rw [← functypes_funcsOf (hlen.trans hlen'.symm)]
  rfl

/-- A section that fits makes its handler return `FW_OK`, and leaves the counts that the grammar
says. The converse of `fits_of_runs`, by cases on the way in which the section fits. -/
theorem runs_of_fits (h : Fits mem (.of m) sec.data sec.type c') :
    ∃ s, Runs (fwSectionHandler mem sec.type) ⟨m, sec⟩ ⟨⟩ s ∧ Counts.of s.module = c' := by
  obtain ⟨t, d, free⟩ := sec
  have hvec {α : Type} {cnt : Part LoadedModule UInt32} {items : Part LoadedModule (List α)}
      {entry : Parse α} {E : ℕ → Stretch} (hE : CoversAny entry E)
      (hof : ∀ n es m, Counts.of (items.put es (cnt.put n m)) = .of m)
      (h : VecAt mem d.last (E d.last) d.pos d.last) : ∃ s,
        Runs (fwVecSection mem cnt items entry) ⟨m, ⟨t, d, free⟩⟩ ⟨⟩ s ∧
          Counts.of s.module = .of m := by
    obtain ⟨s, hrun, heq⟩ := (@vecSection_iff _ _ _ _ _ _ hE hof m ⟨t, d, free⟩ _).mpr ⟨h, rfl⟩
    exact ⟨s, hrun, heq.symm⟩
  cases h with
  | custom => exact ⟨_, rfl, rfl⟩
  | types hn hlen hseq => exact runs_of_typesFit hn hlen hseq
  | imports hn h0 hseen hskim hlen hseq hroom =>
    exact runs_of_importsFit hn h0 hseen hskim hlen hseq hroom
  | noImports hn =>
    exact ⟨_, runs_sectionImport.mpr ⟨0, _, covers_getu32.runs hn, .inr ⟨by simp, rfl, rfl⟩⟩, rfl⟩
  | funcs hn h0 hcode htypes hlen hseq hle hcodes =>
    exact runs_of_funcsFit hn h0 hcode htypes hlen hseq hle hcodes
  | noFuncs hn hcode =>
    exact ⟨_, runs_sectionFunc.mpr ⟨0, _, _, covers_getu32.runs hn, covers_getu32.runs hcode,
      .inr ⟨by simp, rfl, rfl⟩⟩, rfl⟩
  | tables hseq => exact hvec covers_table (fun _ _ _ => rfl) hseq
  | memories hn => exact ⟨_, runs_sectionMemory.mpr ⟨_, covers_getu32.runs hn, rfl, rfl⟩, rfl⟩
  | globals hseq => exact hvec covers_global (fun _ _ _ => rfl) hseq
  | exports hseq => exact hvec covers_export (fun _ _ _ => rfl) hseq
  | start hidx hle =>
    refine ⟨_, runs_sectionStart.mpr ⟨_, _, covers_getu32.runs hidx, hle, rfl, rfl⟩, ?_⟩
    split_ifs <;> rfl
  | elems hseq => exact hvec covers_elem (fun _ _ _ => rfl) hseq
  | code => exact ⟨_, rfl, rfl⟩
  | datas hseq => exact hvec covers_data (fun _ _ _ => rfl) hseq

end

/-- The handlers all return `FW_OK` if and only if every section fits behind the ones before it, and
they leave what the sections say. -/
theorem handled_iff_fits {m : LoadedModule} {secs : List FwModuleSection} {c' : Counts} :
    (∃ m', Handled mem m secs m' ∧ Counts.of m' = c') ↔ AllFit mem (.of m) secs c' := by
  constructor
  · rintro ⟨m', h, rfl⟩
    induction h with
    | nil => exact .nil _
    | cons head _ ih => exact .cons (fits_of_runs head) ih
  · induction secs generalizing m with
    | nil =>
      rintro ⟨⟩
      exact ⟨m, .nil m, rfl⟩
    | cons sec rest ih =>
      rintro (_ | ⟨head, tail⟩)
      obtain ⟨s, hrun, rfl⟩ := runs_of_fits head
      obtain ⟨m', hm', rfl⟩ := ih tail
      exact ⟨m', .cons hrun hm', rfl⟩

/-! ## Whole modules

A module is whole when each count is that of its entries. Most handlers see to that themselves, and
the two that do not are those of types and of imports. -/

/-- Every count is the number of the entries that were decoded into its array. For imports that is
so for each kind. -/
structure LoadedModule.Full (m : LoadedModule) : Prop where
  /-- `type_cnt` -/
  type : m.typeCnt.toNat = (m.type.getD []).length
  /-- `func_cnt` -/
  funcs : m.funcCnt.toNat = m.funcs.length
  /-- `table_cnt` -/
  tables : m.tableCnt.toNat = m.tables.length
  /-- `global_cnt` -/
  globals : m.globalCnt.toNat = m.globals.length
  /-- `export_cnt` -/
  exports : m.exportCnt.toNat = m.exports.length
  /-- `elem_cnt` -/
  elems : m.elemCnt.toNat = m.elems.length
  /-- `data_cnt` -/
  datas : m.dataCnt.toNat = m.datas.length
  /-- `import_cnt` -/
  imports : ∀ k, (m.importCnt k).toNat = (m.imports k).length

/-- The counts that every handler leaves right, when it returns `FW_OK`. -/
def LoadedModule.Counted (m : LoadedModule) : Prop :=
  m.funcCnt.toNat = m.funcs.length ∧ m.tableCnt.toNat = m.tables.length ∧
    m.globalCnt.toNat = m.globals.length ∧ m.exportCnt.toNat = m.exports.length ∧
    m.elemCnt.toNat = m.elems.length ∧ m.dataCnt.toNat = m.datas.length

/-- The types are all there, as many as `type_cnt` says. -/
def LoadedModule.TypesFull (m : LoadedModule) : Prop := m.typeCnt.toNat = (m.type.getD []).length

/-- The imports are all there, of each kind as many as its count says. -/
def LoadedModule.ImportsFull (m : LoadedModule) : Prop :=
  ∀ k, (m.importCnt k).toNat = (m.imports k).length

theorem full_iff {m : LoadedModule} : m.Full ↔ m.Counted ∧ m.TypesFull ∧ m.ImportsFull := by
  refine ⟨?_, ?_⟩
  · exact fun h => ⟨⟨h.funcs, h.tables, h.globals, h.exports, h.elems, h.datas⟩, h.type, h.imports⟩
  · rintro ⟨⟨h₁, h₂, h₃, h₄, h₅, h₆⟩, ht, hi⟩
    exact ⟨ht, h₁, h₂, h₃, h₄, h₅, h₆, hi⟩

theorem counted_of_done {m m' : LoadedModule} {d : FwStr} {t : UInt8}
    (h : SectionDone mem m d t m') (hm : m.Counted) : m'.Counted := by
  obtain ⟨h₁, h₂, h₃, h₄, h₅, h₆⟩ := hm
  cases h with
  | same | types _ _ | imports _ _ _ _ _ _ _ | code | start _ _ _ => exact ⟨h₁, h₂, h₃, h₄, h₅, h₆⟩
  | funcs _ _ _ _ hlen _ hlen' =>
    exact ⟨((length_funcsOf (hlen.trans hlen'.symm)).trans hlen).symm, h₂, h₃, h₄, h₅, h₆⟩
  | tables hlen => exact ⟨h₁, hlen.symm, h₃, h₄, h₅, h₆⟩
  | globals hlen => exact ⟨h₁, h₂, hlen.symm, h₄, h₅, h₆⟩
  | exports hlen => exact ⟨h₁, h₂, h₃, hlen.symm, h₅, h₆⟩
  | elems hlen => exact ⟨h₁, h₂, h₃, h₄, hlen.symm, h₆⟩
  | datas hlen => exact ⟨h₁, h₂, h₃, h₄, h₅, hlen.symm⟩

theorem full_new (sections : List FwModuleSection) (codeRef : FwStr) :
    (LoadedModule.new sections codeRef).Full :=
  ⟨rfl, rfl, rfl, rfl, rfl, rfl, rfl, fun _ => rfl⟩

/-- The counts are those of the entries: a type section that says 0 takes no types away, and the
second pass over the imports has found as many of each kind as the first one. -/
structure Counts.Settled (c : Counts) : Prop where
  /-- the types -/
  types : c.typeCnt.toNat = (c.types.getD []).length
  /-- the imports -/
  imports : ∀ k, (c.counted k).toNat = c.stored k

/-- Handlers that all return `FW_OK` leave a full module exactly when the counts are settled. -/
theorem full_iff_settled {loaded m : LoadedModule} (h : Handled mem loaded loaded.sections m)
    (hnew : loaded.Full) : m.Full ↔ (Counts.of m).Settled := by
  have hm : m.Counted :=
    h.induct (fun _ _ _ hrun => counted_of_done (done_of_runs hrun)) (full_iff.mp hnew).1
  rw [full_iff, and_iff_right hm]
  exact ⟨fun h => ⟨h.1, h.2⟩, fun h => ⟨h.types, h.imports⟩⟩

/-- A file all of whose sections fit, one behind the other, and leave the counts settled. It is a
condition on the bytes of the file alone. -/
def FileFits (mem : Mem) (file : FwStr) : Prop :=
  ∃ secs code c, FileAt mem file secs code ∧ AllFit mem (.init code) secs c ∧ c.Settled

/-- What `fw_module_load` returns is what `fw_module_parse` leaves, whatever status it returns. -/
theorem load_eq_some {file : FwStr} {m : LoadedModule}
    (h : fwModuleLoad mem (some file) = .ok (some m)) : ∃ loaded str' status,
      Runs (_fwModuleLoad mem) file loaded str' ∧ fwModuleParse mem loaded = .ok (status, m) := by
  simp only [fwModuleLoad] at h
  split at h
  · cases h
  · cases h
  · next loaded str' hload =>
    split at h
    · cases h
    · next status m' hparse =>
      cases h
      exact ⟨loaded, str', status, hload, hparse⟩

/-- A file that fits is loaded, and its parse returns `FW_OK`. -/
theorem load_of_fits {file : FwStr} (h : FileFits mem file) :
    ∃ m, fwModuleLoad mem (some file) = .ok (some m) := by
  obtain ⟨secs, code, _, hfile, hfit, -⟩ := h
  obtain ⟨str', hload⟩ := load_iff_fileAt.mpr ⟨secs, code, hfile, rfl⟩
  obtain ⟨m', hm', -⟩ := (handled_iff_fits (m := .new secs code)).mpr hfit
  obtain ⟨secs', hparse⟩ := @parse_of_handled _ (.new secs code) _ hm'
  rw [Runs] at hload
  simp only [fwModuleLoad, hload, hparse]
  exact ⟨_, rfl⟩

/-- A module that `fw_module_load` returns is whole: every handler has returned `FW_OK`, and every
count is the number of the entries that were decoded. -/
def LoadedWhole (mem : Mem) (file : FwStr) (m : LoadedModule) : Prop :=
  (∃ loaded str' m', Runs (_fwModuleLoad mem) file loaded str' ∧
    Handled mem loaded loaded.sections m') ∧ m.Full

/-- A module that `fw_module_load` returns (`h`) is whole if and only if its file fits: the file
begins with the magic number and the version, its sections have ids that exist and sizes that end
with the file, there is a code section, each payload is what its handler takes behind the sections
before it, and the counts are settled. The bytes are any for which a module is returned, and nothing
is assumed of the handlers. -/
theorem load_whole_iff {file : FwStr} {m : LoadedModule}
    (h : fwModuleLoad mem (some file) = .ok (some m)) :
    LoadedWhole mem file m ↔ FileFits mem file := by
  obtain ⟨loaded, str', status, hload, hparse⟩ := load_eq_some h
  obtain ⟨secs, code, hfile, rfl⟩ := load_iff_fileAt.mp ⟨str', hload⟩
  -- the handlers leave `m`, up to the sections
  have hfull {m' : LoadedModule} (hm' : Handled mem (.new secs code) secs m') :
      m.Full ↔ m'.Full := by
    obtain ⟨secs', hparse'⟩ := @parse_of_handled _ (.new secs code) _ hm'
    obtain ⟨rfl, rfl⟩ := Prod.mk.inj (Except.ok.inj (hparse.symm.trans hparse'))
    rw [full_iff, full_iff]
    exact Iff.rfl
  have hsettled {m' : LoadedModule} (hm' : Handled mem (.new secs code) secs m') :=
    @full_iff_settled _ (.new secs code) _ hm' (full_new secs code)
  constructor
  · rintro ⟨⟨_, _, m', hload', hm'⟩, hm⟩
    obtain ⟨rfl, -⟩ := hload.unique hload'
    exact ⟨secs, code, _, hfile, handled_iff_fits.mp ⟨m', hm', rfl⟩,
      (hsettled hm').mp ((hfull hm').mp hm)⟩
  · rintro ⟨secs', code', _, hfile', hfit, hc⟩
    obtain ⟨str'', hload'⟩ := load_iff_fileAt.mpr ⟨secs', code', hfile', rfl⟩
    obtain ⟨heq, -⟩ := hload.unique hload'
    obtain rfl : secs = secs' := congrArg LoadedModule.sections heq
    obtain rfl : code = code' := congrArg LoadedModule.codeRef heq
    obtain ⟨m', hm', rfl⟩ := (handled_iff_fits (m := .new secs code)).mpr hfit
    exact ⟨⟨_, str', m', hload, hm'⟩, (hfull hm').mpr ((hsettled hm').mpr hc)⟩

/-- Two types, an imported function and an imported global, two functions, two exports, an element
segment for each function and one that is empty, and the code. -/
def mixedFile : List UInt8 := wasmHeader ++
  [0x01, 0x0a, 0x02, 0x60, 0x00, 0x00, 0x60, 0x02, 0x7f, 0x7f, 0x01, 0x7f,
    0x02, 0x0e, 0x02, 0x01, 0x6d, 0x01, 0x66, 0x00, 0x01, 0x01, 0x6d, 0x01, 0x67, 0x03, 0x7f, 0x00,
    0x03, 0x03, 0x02, 0x00, 0x01,
    0x07, 0x09, 0x02, 0x01, 0x61, 0x00, 0x01, 0x01, 0x62, 0x00, 0x02,
    0x09, 0x12, 0x03, 0x00, 0x41, 0x00, 0x0b, 0x01, 0x01, 0x00, 0x41, 0x02, 0x0b, 0x01, 0x02,
    0x00, 0x41, 0x04, 0x0b, 0x00,
    0x0a, 0x09, 0x02, 0x02, 0x00, 0x0b, 0x04, 0x00, 0x20, 0x00, 0x0b]

/-- Its sections up to the exports, as slices of its bytes. -/
def mixedSections : List FwModuleSection :=
  [⟨1, ⟨10, 20⟩, false⟩, ⟨2, ⟨22, 36⟩, false⟩, ⟨3, ⟨38, 41⟩, false⟩, ⟨7, ⟨43, 52⟩, false⟩]

/-- And the ones behind them. -/
def mixedRest : List FwModuleSection := [⟨9, ⟨54, 72⟩, false⟩, ⟨10, ⟨74, 83⟩, false⟩]

theorem mixedFile_u8 {p last : ℕ} (hb : (memOf mixedFile p).toNat < 128) (hp : p < last) :
    U8At (memOf mixedFile) last (memOf mixedFile p) p (p + 1) :=
  numberAt_byte (by decide) hb hp

theorem mixedFile_u32 (p : ℕ) (n : UInt32) {last : ℕ} (hn : (memOf mixedFile p).toNat = n.toNat)
    (hb : (memOf mixedFile p).toNat < 128) (hp : p < last) :
    U32At (memOf mixedFile) last n p (p + 1) := by
  rw [U32At, ← hn]
  exact numberAt_byte (by decide) hb hp

theorem mixedFile_at :
    FileAt (memOf mixedFile) ⟨0, 83⟩ (mixedSections ++ mixedRest) ⟨74, 83⟩ where
  header := by decide
  magic := by decide
  version := by decide
  sections :=
    .cons (by decide) (by decide) (mixedFile_u32 9 10 rfl (by decide) (by decide)) <|
    .cons (by decide) (by decide) (mixedFile_u32 21 14 rfl (by decide) (by decide)) <|
    .cons (by decide) (by decide) (mixedFile_u32 37 3 rfl (by decide) (by decide)) <|
    .cons (by decide) (by decide) (mixedFile_u32 42 9 rfl (by decide) (by decide)) <|
    .cons (by decide) (by decide) (mixedFile_u32 53 18 rfl (by decide) (by decide)) <|
    .cons (by decide) (by decide) (mixedFile_u32 73 9 rfl (by decide) (by decide)) .nil
  code_eq := rfl

/-- The sections up to the exports fit, and leave two functions. Two types, the imports of a
function and of a global, two functions with two bodies in the code section at the end of the file,
and two exports. -/
theorem mixedSections_fit : ∃ c, AllFit (memOf mixedFile) (.init ⟨74, 83⟩) mixedSections c ∧
    c.funcCnt = 2 ∧ c.Settled := by
  have hu32 := mixedFile_u32
  have hbyte (p : ℕ) {last : ℕ} (hp : p < last) :
      ByteAt (memOf mixedFile) last (memOf mixedFile p) p (p + 1) := ⟨hp, rfl, rfl⟩
  have hname (p : ℕ) {last : ℕ} (hn : memOf mixedFile p = 1) (hp : p + 1 < last) :
      NameAt (memOf mixedFile) last p (p + 2) :=
    ⟨1, p + 1, hu32 p 1 (by rw [hn]; rfl) (by rw [hn]; decide) (by omega), hp, rfl⟩
  have htype : TypeAt (memOf mixedFile) 20 ⟨0, 0, []⟩ 11 14 :=
    ⟨12, hbyte 11 (by decide), 0, 13, hu32 12 0 rfl (by decide) (by decide), 13,
      ⟨by decide, rfl⟩, 0, 14, hu32 13 0 rfl (by decide) (by decide), ⟨by decide, rfl⟩, rfl⟩
  have htype' : TypeAt (memOf mixedFile) 20 ⟨2, 1, [0x7f, 0x7f, 0x7f]⟩ 14 20 :=
    ⟨15, hbyte 14 (by decide), 2, 16, hu32 15 2 rfl (by decide) (by decide), 18,
      ⟨by decide, rfl⟩, 1, 19, hu32 18 1 rfl (by decide) (by decide), ⟨by decide, rfl⟩, rfl⟩
  have htypes : Stretch.Seq (TypeAt (memOf mixedFile) 20)
      [⟨0, 0, []⟩, ⟨2, 1, [0x7f, 0x7f, 0x7f]⟩] 11 20 := ⟨14, htype, 20, htype', rfl⟩
  have hfunc : ImportHeadAt (memOf mixedFile) 36 0 23 28 :=
    ⟨25, hname 23 rfl (by decide), 27, hname 25 rfl (by decide),
      mixedFile_u8 (by decide) (by decide)⟩
  have hidx : U32At (memOf mixedFile) 36 1 28 29 := hu32 28 1 rfl (by decide) (by decide)
  have hglobal : ImportHeadAt (memOf mixedFile) 36 3 29 34 :=
    ⟨31, hname 29 rfl (by decide), 33, hname 31 rfl (by decide),
      mixedFile_u8 (by decide) (by decide)⟩
  have hglobalType : GlobalTypeAt (memOf mixedFile) 36 34 36 :=
    ⟨0x7f, 35, mixedFile_u8 (by decide) (by decide), 0, mixedFile_u8 (by decide) (by decide)⟩
  have hseen : Stretch.Seq (ImportSeenAt (memOf mixedFile) 36) [some .func, some .global] 23 36 :=
    ⟨29, ⟨0, 28, hfunc, rfl, 1, hidx⟩, 36, ⟨3, 34, hglobal, rfl, hglobalType⟩, rfl⟩
  have himports : Stretch.Seq (ImportAt (memOf mixedFile) 36) [.func, .global] 23 36 :=
    ⟨29, ⟨0, 28, hfunc, rfl, 1, hidx⟩, 36, ⟨3, 34, hglobal, rfl, hglobalType⟩, rfl⟩
  have hidxs : Stretch.Seq (U32At (memOf mixedFile) 41) [0, 1] 39 41 :=
    ⟨40, hu32 39 0 rfl (by decide) (by decide), 41, hu32 40 1 rfl (by decide) (by decide), rfl⟩
  have hcode : CodeAt (memOf mixedFile) 83 75 78 :=
    ⟨2, 76, hu32 75 2 rfl (by decide) (by decide), 0, 77, hu32 76 0 rfl (by decide) (by decide),
      [], 77, rfl, rfl, by decide, rfl⟩
  have hcode' : CodeAt (memOf mixedFile) 83 78 83 :=
    ⟨4, 79, hu32 78 4 rfl (by decide) (by decide), 0, 80, hu32 79 0 rfl (by decide) (by decide),
      [], 80, rfl, rfl, by decide, rfl⟩
  have hcodes : Stretch.Seq (fun _ => CodeAt (memOf mixedFile) 83) (List.replicate 2 ()) 75 83 :=
    ⟨78, hcode, 83, hcode', rfl⟩
  have hexport : ExportAt (memOf mixedFile) 52 44 48 :=
    ⟨46, hname 44 rfl (by decide), 0, 47, hbyte 46 (by decide), 1,
      hu32 47 1 rfl (by decide) (by decide)⟩
  have hexport' : ExportAt (memOf mixedFile) 52 48 52 :=
    ⟨50, hname 48 rfl (by decide), 0, 51, hbyte 50 (by decide), 2,
      hu32 51 2 rfl (by decide) (by decide)⟩
  have hexports : VecAt (memOf mixedFile) 52 (ExportAt (memOf mixedFile) 52) 43 52 :=
    ⟨2, 44, hu32 43 2 rfl (by decide) (by decide), 48, hexport, 52, hexport', rfl⟩
  have hbelow : ∀ idx ∈ [(0 : UInt32), 1], idx ≤ 2 := by simp
  have hcount : U32At (memOf mixedFile) 83 2 74 75 := hu32 74 2 rfl (by decide) (by decide)
  exact ⟨_,
    .cons (.types (hu32 10 2 rfl (by decide) (by decide)) rfl htypes) <|
    .cons (.imports (hu32 22 2 rfl (by decide) (by decide)) (by decide) rfl hseen rfl himports
      (by decide)) <|
    .cons (.funcs (hu32 38 2 rfl (by decide) (by decide)) (by decide) hcount rfl rfl hidxs
      hbelow hcodes) <|
    .cons (.exports hexports) (.nil _), rfl, rfl, fun k => by cases k <;> rfl⟩

/-- The sections behind them fit and change nothing: three element segments, of which the last one
is empty, and the code section, which the handler of the functions has read already. -/
theorem mixedRest_fit (c : Counts) : AllFit (memOf mixedFile) c mixedRest c := by
  have hu32 := mixedFile_u32
  have hoffset (p : ℕ) (n : UInt8) {last : ℕ} (hm : Holds (memOf mixedFile) p [0x41, n, 0x0b])
      (hn : n < 0x80) (hp : p + 3 ≤ last) : ExprAt (memOf mixedFile) last p (p + 3) :=
    ⟨[0x41, n, 0x0b], ⟨0x41, [n], .i32Const ⟨hn, by simp⟩, rfl⟩, hm, rfl, hp⟩
  have hidx : ∃ idx, U32At (memOf mixedFile) 72 idx 60 61 :=
    ⟨1, hu32 60 1 rfl (by decide) (by decide)⟩
  have helem : ElemAt (memOf mixedFile) 72 55 61 :=
    ⟨0, 56, hu32 55 0 rfl (by decide) (by decide), 59,
      hoffset 56 0 ⟨rfl, rfl, rfl, trivial⟩ (by decide) (by decide), 1, 60,
      hu32 59 1 rfl (by decide) (by decide), hidx⟩
  have hidx' : ∃ idx, U32At (memOf mixedFile) 72 idx 66 67 :=
    ⟨2, hu32 66 2 rfl (by decide) (by decide)⟩
  have helem' : ElemAt (memOf mixedFile) 72 61 67 :=
    ⟨0, 62, hu32 61 0 rfl (by decide) (by decide), 65,
      hoffset 62 2 ⟨rfl, rfl, rfl, trivial⟩ (by decide) (by decide), 1, 66,
      hu32 65 1 rfl (by decide) (by decide), hidx'⟩
  have hempty : ElemAt (memOf mixedFile) 72 67 72 :=
    ⟨0, 68, hu32 67 0 rfl (by decide) (by decide), 71,
      hoffset 68 4 ⟨rfl, rfl, rfl, trivial⟩ (by decide) (by decide), 0, 72,
      hu32 71 0 rfl (by decide) (by decide), rfl⟩
  have helems : VecAt (memOf mixedFile) 72 (ElemAt (memOf mixedFile) 72) 54 72 :=
    ⟨3, 55, hu32 54 3 rfl (by decide) (by decide), 61, helem, 67, helem', 72, hempty, rfl⟩
  exact .cons (.elems helems) (.cons .code (.nil c))

theorem mixedFile_fits : FileFits (memOf mixedFile) ⟨0, 83⟩ := by
  obtain ⟨c, hfit, -, hc⟩ := mixedSections_fit
  exact ⟨_, _, c, mixedFile_at, allFit_append.mpr ⟨c, hfit, mixedRest_fit c⟩, hc⟩

/-- Everything in it is decoded, as its sections fit. -/
theorem mixedFile_whole : ∃ m, fwModuleLoad (memOf mixedFile) (some ⟨0, 83⟩) = .ok (some m) ∧
    LoadedWhole (memOf mixedFile) ⟨0, 83⟩ m := by
  obtain ⟨m, hm⟩ := load_of_fits mixedFile_fits
  exact ⟨m, hm, (load_whole_iff hm).mpr mixedFile_fits⟩

/-- A code section, and a type section that ends behind its count of 1. -/
def cutType : List UInt8 := wasmHeader ++ [0x0a, 0x01, 0x00, 0x01, 0x01, 0x01]

/-- `fw_module_load` returns a module with one type and no entry for it. -/
theorem cutType_not_whole : ¬ ∀ m, fwModuleLoad (memOf cutType) (some ⟨0, 14⟩) = .ok (some m) →
    LoadedWhole (memOf cutType) ⟨0, 14⟩ m := by
  intro h
  exact absurd (h _ rfl).2.type (by decide)

end FastWasm
