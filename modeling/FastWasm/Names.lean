import FastWasm.ParseStatus
import FastWasm.Vectors

/-!
# Copies of names

`fw_make_str` copies a name before `fw_str_pass` compares its length with the bytes that are left.
So a copy stays inside the section exactly when the name does (`copies_inside_iff`).

The names are those of the payload: the export handler comes to the name behind every export that is
whole, and the import handler, in its filling pass, to both names of every import behind some that
are whole. It has passed over the imports once before, and that pass does compare the lengths with
what is left. So nothing is copied from outside where the two passes read the same names, and only
behind a table they do not.

The places of the names are said with the encodings of numbers, names and limits (`LengthAt`,
`ExportName`, `ImportName`), and not with the readers, so that the condition is about the bytes of
the section. That the readers come to just these places is proved for each loop, by what it adds to
the log.
-/

namespace FastWasm

open Logged (Fallible Part)
open Logged.Fallible

variable {mem : Mem} {s : LoadState} {str : FwStr} {e : LoadEvent}

/-! ## What the readers copy

A copy is an event with its address and its length. Most readers copy nothing, and the rest of a
reader that copies comes behind the copy. -/

/-- A reader that copies nothing, so its log has no copy in it. -/
def CopyFree {α : Type} (m : Parse α) : Prop := ∀ str, (m str).log = []

namespace CopyFree

variable {α β : Type}

theorem mem_log {m : Parse α} (h : CopyFree m) : e ∈ (m str).log ↔ False := by
  rw [h str]
  exact List.mem_nil_iff e

theorem pure (a : α) : CopyFree (pure a : Parse α) := fun _ => rfl

theorem bind {m : Parse α} {f : α → Parse β} (hm : CopyFree m) (hf : ∀ a, CopyFree (f a)) :
    CopyFree (m >>= f) := by
  intro str
  refine List.eq_nil_iff_forall_not_mem.mpr fun e he => ?_
  rcases mem_log_bind.mp he with he | ⟨a, str', -, he⟩
  · exact hm.mem_log.mp he
  · exact (hf a).mem_log.mp he

theorem ite {c : Prop} [Decidable c] {m m' : Parse α} (hm : CopyFree m) (hm' : CopyFree m') :
    CopyFree (if c then m else m') := by
  split
  · exact hm
  · exact hm'

theorem ofLeb (read : FwStr → LebRead) : CopyFree (Parse.ofLeb read) := by
  intro str
  rw [Parse.ofLeb]
  cases read str <;> rfl

theorem getu32 : CopyFree (fwStrLebGetu32 mem) := (ofLeb _).bind fun _ => pure _

theorem getu8 : CopyFree (fwStrLebGetu8 mem) := (ofLeb _).bind fun _ => pure _

theorem get8 : CopyFree (Parse.get8 mem) := by
  intro str
  rw [Parse.get8]
  cases fwStrGet8 mem str <;> rfl

theorem pass (size : ℕ) : CopyFree (fwStrPass size) := by
  intro str
  rw [fwStrPass]
  split <;> rfl

theorem consumed : CopyFree Parse.consumed := by
  intro str
  refine List.eq_nil_iff_forall_not_mem.mpr fun e he => ?_
  simp [Parse.consumed] at he

theorem limitsMax (limits dflt : UInt32) : CopyFree (fwLimitsMax mem limits dflt) :=
  getu32.ite (pure dflt)

theorem importSkip (k : Option FwImportKind) : CopyFree (fwImportSkip mem k) := by
  rcases k with _ | _ | _ | _ | _
  · exact pure _
  · exact getu32.bind fun _ => pure _
  · exact getu8.bind fun _ => pure _
  · exact getu32.bind fun _ => getu32.bind fun _ => (limitsMax _ _).bind fun _ => pure _
  · exact getu8.bind fun _ => getu8.bind fun _ => pure _

theorem importDesc (k : FwImportKind) : CopyFree (fwImportDesc mem k) := by
  cases k with
  | func => exact getu32.bind fun _ => pure _
  | table =>
    exact getu8.bind fun _ => getu32.bind fun _ => getu32.bind fun _ => (limitsMax _ _).bind
      fun _ => pure _
  | memory => exact getu32.bind fun _ => getu32.bind fun _ => (limitsMax _ _).bind fun _ => pure _
  | global => exact getu8.bind fun _ => getu8.bind fun _ => pure _

end CopyFree

/-- At `p` stands the length of a name of `len` bytes, and the name at `pos`. -/
def LengthAt (mem : Mem) (last p pos len : ℕ) : Prop := ∃ n, U32At mem last n p pos ∧ len = n.toNat

theorem lengthAt_iff {pos len : ℕ} : LengthAt mem str.last str.pos pos len ↔
    ∃ n str', Runs (fwStrLebGetu32 mem) str n str' ∧ pos = str'.pos ∧ len = n.toNat := by
  simp only [covers_getu32.runs_iff, LengthAt]
  constructor
  · rintro ⟨n, hn, hlen⟩
    exact ⟨n, ⟨pos, str.last⟩, ⟨rfl, hn⟩, rfl, hlen⟩
  · rintro ⟨n, str', ⟨-, hn⟩, rfl, hlen⟩
    exact ⟨n, hn, hlen⟩

/-- The next `size` bytes are copied, from where the cursor is. -/
theorem mem_log_makeStr {size : ℕ} :
    e ∈ (fwMakeStr mem size str).log ↔ e = .makeStr str.pos size := by
  simp [fwMakeStr]

theorem mem_log_importName {pos len : ℕ} :
    .makeStr pos len ∈ (fwImportName mem str).log ↔ LengthAt mem str.last str.pos pos len := by
  rw [fwImportName, lengthAt_iff]
  simp only [mem_log_bind, CopyFree.getu32.mem_log, mem_log_makeStr, (CopyFree.pass _).mem_log,
    mem_log_pure, and_false, exists_false, or_false, false_or, LoadEvent.makeStr.injEq]

theorem mem_log_exportEntry {pos len : ℕ} :
    .makeStr pos len ∈ (fwExportEntry mem str).log ↔ LengthAt mem str.last str.pos pos len := by
  rw [fwExportEntry, lengthAt_iff]
  simp only [mem_log_bind, CopyFree.getu32.mem_log, mem_log_makeStr, (CopyFree.pass _).mem_log,
    CopyFree.get8.mem_log, mem_log_pure, and_false, exists_false, or_false, false_or,
    LoadEvent.makeStr.injEq]

/-! ## What the handlers copy

The log of a loop is that of its rounds, and a round is reached when those before it have succeeded.
That is what the places of the names say in terms of bytes. -/

theorem mem_log_onData {α : Type} {m : Parse α} :
    e ∈ (Load.onData m s).log ↔ e ∈ (m s.sec.data).log := by
  rw [Load.onData, log_zoom]
  rfl

theorem mem_log_update {f : LoadedModule → LoadedModule} :
    e ∈ (Load.update f s).log ↔ False :=
  mem_log_modify

/-- The loop over the entries of a vector copies what they copy. -/
theorem mem_log_vecLoop {α : Type} {items : Part LoadedModule (List α)} {entry : Parse α} {n : ℕ} :
    e ∈ (collect (Load.onData entry >>= push (LoadState.modulePart.comp items)) n s).log ↔
      ∃ es d, es.length < n ∧ Reads entry s.sec.data es d ∧ e ∈ (entry d).log := by
  rw [mem_log_collect]
  refine ⟨?_, ?_⟩
  · rintro ⟨us, s', hlen, hloop, he⟩
    obtain ⟨es, d, hes, hreads, rfl⟩ :=
      (reads_push (LoadState.data_apart_module.comp items)).mp hloop
    simp only [mem_log_bind, mem_log_onData, push, mem_log_modify, and_false, exists_false,
      or_false] at he
    exact ⟨es, d, hes.trans_lt hlen, hreads, he⟩
  · rintro ⟨es, d, hlen, hreads, he⟩
    refine ⟨List.replicate es.length ⟨⟩, _, List.length_replicate.trans_lt hlen,
      (reads_push (LoadState.data_apart_module.comp items)).mpr
        ⟨es, d, List.length_replicate.symm, hreads, rfl⟩, mem_log_bind.mpr (.inl ?_)⟩
    exact mem_log_onData.mpr he

/-- A vector section copies what its entries copy, behind the count. -/
theorem mem_log_vecSection {α : Type} {cnt : Part LoadedModule UInt32}
    {items : Part LoadedModule (List α)} {entry : Parse α} :
    e ∈ (fwVecSection mem cnt items entry s).log ↔
      ∃ n d, Runs (fwStrLebGetu32 mem) s.sec.data n d ∧
        ∃ es d', es.length < n.toNat ∧ Reads entry d es d' ∧ e ∈ (entry d').log := by
  rw [fwVecSection]
  simp only [mem_log_bind, mem_log_ite, mem_log_onData, CopyFree.getu32.mem_log, mem_log_update,
    CopyFree.consumed.mem_log, Load.setFree, mem_log_modify, mem_log_vecLoop, runs_onData,
    runs_update, runs_modify, exists_built, and_false, exists_false, or_false, false_or,
    exists_eq_left]
  refine exists_congr fun n => exists_congr fun d => and_congr_right fun _ => ?_
  refine ⟨?_, ?_⟩
  · rintro ⟨-, -, -, h⟩
    exact h
  · rintro ⟨es, d', hlen, h⟩
    refine ⟨?_, ⟨⟩, ⟨⟩, es, d', hlen, h⟩
    rintro rfl
    exact absurd hlen (Nat.not_lt_zero _)

/-- The name of an export of the payload is at `pos`, with `len` bytes; the exports before it are
whole. -/
def ExportName (mem : Mem) (d : FwStr) (pos len : ℕ) : Prop :=
  ∃ n p, U32At mem d.last n d.pos p ∧ ∃ k < n.toNat, ∃ q,
    Stretch.Seq (fun _ => ExportAt mem d.last) (List.replicate k ()) p q ∧
      LengthAt mem d.last q pos len

theorem mem_log_sectionExport {pos len : ℕ} :
    .makeStr pos len ∈ (fwModuleSectionExport mem s).log ↔ ExportName mem s.sec.data pos len := by
  rw [fwModuleSectionExport, mem_log_vecSection]
  simp only [mem_log_exportEntry, covers_getu32.runs_iff, ExportName]
  constructor
  · rintro ⟨n, d, ⟨hlast, hn⟩, es, d', hlen, hes, hname⟩
    obtain ⟨hlast', hseq⟩ := (covers_export.any_seq es.length d d').mp ⟨es, rfl, hes⟩
    rw [hlast', hlast] at hname
    rw [hlast] at hseq
    exact ⟨n, d.pos, hn, es.length, hlen, d'.pos, hseq, hname⟩
  · rintro ⟨n, p, hn, k, hk, q, hseq, hname⟩
    obtain ⟨es, rfl, hes⟩ := (covers_export.any_seq k ⟨p, s.sec.data.last⟩
      ⟨q, s.sec.data.last⟩).mpr ⟨rfl, hseq⟩
    exact ⟨n, ⟨p, s.sec.data.last⟩, ⟨rfl, hn⟩, es, _, hk, hes, hname⟩

/-- The counting pass copies nothing, and compares lengths with what is left. -/
theorem mem_log_importCount : e ∈ (fwImportCount mem s).log ↔ False := by
  have hread : CopyFree (do
      let mnameLen ← fwStrLebGetu32 mem
      fwStrPass mnameLen.toNat
      let nsnameLen ← fwStrLebGetu32 mem
      fwStrPass nsnameLen.toNat
      fwStrLebGetu8 mem) :=
    CopyFree.getu32.bind fun _ => (CopyFree.pass _).bind fun _ => CopyFree.getu32.bind fun _ =>
      (CopyFree.pass _).bind fun _ => CopyFree.getu8
  rw [fwImportCount]
  simp only [mem_log_bind, mem_log_onData, hread.mem_log, mem_log_update,
    (CopyFree.importSkip _).mem_log, and_false, exists_false, or_false]

/-- One of the two names of the import at `p`. -/
def ImportNameAt (mem : Mem) (last p pos len : ℕ) : Prop :=
  LengthAt mem last p pos len ∨ ∃ r, NameAt mem last p r ∧ LengthAt mem last r pos len

/-- The filling pass copies the names, the second one when it has passed over the first. -/
theorem mem_log_importFill {pos len : ℕ} :
    .makeStr pos len ∈ (fwImportFill mem s).log ↔
      ImportNameAt mem s.sec.data.last s.sec.data.pos pos len := by
  rw [fwImportFill, ImportNameAt]
  simp only [mem_log_bind, mem_log_onData, mem_log_importName, CopyFree.getu8.mem_log, mem_log_get,
    runs_onData, exists_built, false_or]
  constructor
  · rintro (h | ⟨mname, d, hmname, h | ⟨nsname, d', -, byte, d'', -, s₁, s₂, -, h⟩⟩)
    · exact .inl h
    · obtain ⟨hlast, hname⟩ := (covers_name s.sec.data d ()).mp ⟨mname, hmname, rfl⟩
      rw [hlast] at h
      exact .inr ⟨d.pos, hname, h⟩
    · -- behind the names nothing is copied
      cases hk : FwImportKind.ofByte byte with
      | none => simp [hk] at h
      | some kind =>
        simp [hk, mem_log_onData, (CopyFree.importDesc kind).mem_log, mem_log_update] at h
  · rintro (h | ⟨r, hname, h⟩)
    · exact .inl h
    · obtain ⟨mname, hmname, -⟩ := (covers_name s.sec.data ⟨r, s.sec.data.last⟩ ()).mpr ⟨rfl, hname⟩
      exact .inr ⟨mname, _, hmname, .inl h⟩

/-- The loop of the filling pass copies the names of the imports. -/
theorem mem_log_importFills {pos len n : ℕ} :
    .makeStr pos len ∈ (collect (fwImportFill mem) n s).log ↔
      ∃ imps d, imps.length < n ∧ Reads (fwImportEntry mem) s.sec.data imps d ∧
        s.module.Room imps ∧ ImportNameAt mem d.last d.pos pos len := by
  rw [mem_log_collect]
  refine ⟨?_, ?_⟩
  · rintro ⟨us, s', hlen, hloop, he⟩
    obtain ⟨imps, d, himps, ⟨hreads, hroom⟩, rfl⟩ := reads_importFill.mp hloop
    exact ⟨imps, d, himps.trans_lt hlen, hreads, hroom, mem_log_importFill.mp he⟩
  · rintro ⟨imps, d, hlen, hreads, hroom, h⟩
    exact ⟨List.replicate imps.length ⟨⟩, _, List.length_replicate.trans_lt hlen,
      reads_importFill.mpr ⟨imps, d, List.length_replicate.symm, ⟨hreads, hroom⟩, rfl⟩,
      mem_log_importFill.mpr h⟩

/-- A name that the filling pass comes to is at `pos`, with `len` bytes. The counting pass has
reached the end of the imports, and the imports before it are whole and have been stored. -/
def ImportName (mem : Mem) (c : Counts) (d : FwStr) (pos len : ℕ) : Prop :=
  ∃ n p, U32At mem d.last n d.pos p ∧
    ∃ seen q, seen.length = n.toNat ∧ Stretch.Seq (ImportSeenAt mem d.last) seen p q ∧
      ∃ kinds r, kinds.length < n.toNat ∧ Stretch.Seq (ImportAt mem d.last) kinds p r ∧
        (∀ k ∈ kinds, c.store (c.count seen) kinds k ≤ (c.count seen k).toNat) ∧
        ImportNameAt mem d.last r pos len

theorem mem_log_sectionImport_reads {pos len : ℕ} :
    .makeStr pos len ∈ (fwModuleSectionImport mem s).log ↔
      ∃ n d, Runs (fwStrLebGetu32 mem) s.sec.data n d ∧
        ∃ kinds d₁, kinds.length = n.toNat ∧ Reads (fwImportSeen mem) d kinds d₁ ∧
          ∃ imps d₂, imps.length < n.toNat ∧ Reads (fwImportEntry mem) d imps d₂ ∧
            (s.module.countImports kinds).allocImports.Room imps ∧
            ImportNameAt mem d₂.last d₂.pos pos len := by
  have hcount (n : ℕ) (s : LoadState) : LoadEvent.makeStr pos len ∈
      (collect (fwImportCount mem) n s).log ↔ False := by
    simp only [mem_log_collect, mem_log_importCount, and_false, exists_false]
  rw [fwModuleSectionImport]
  simp only [mem_log_bind, mem_log_ite, mem_log_onData, CopyFree.getu32.mem_log, mem_log_update,
    CopyFree.consumed.mem_log, Load.setFree, mem_log_modify, mem_log_get, Parse.seek, hcount,
    mem_log_importFills, runs_onData, runs_update, runs_modify, runs_get, exists_built, and_false,
    exists_false, or_false, false_or, exists_eq_left]
  refine exists_congr fun n => exists_congr fun d => and_congr_right fun _ => ?_
  -- the cursor of the filling pass ends where that of the counting pass does
  have hlast {kinds : List (Option FwImportKind)} {d₁ : FwStr}
      (h : Reads (fwImportSeen mem) d kinds d₁) : d₁.last = d.last :=
    (forward_importSeen.collect kinds.length (runs_collect.mpr ⟨rfl, h⟩)).2
  refine ⟨?_, ?_⟩
  · rintro ⟨-, _, _, ⟨rfl, rfl⟩, us, s₁, hloop, -, -, -, imps, d₂, hlen, hreads, hroom, hname⟩
    obtain ⟨hus, hloop⟩ := runs_collect.mp hloop
    obtain ⟨kinds, d₁, hkinds, hseen, rfl⟩ := reads_importCount.mp hloop
    simp only [hlast hseen] at hreads
    exact ⟨kinds, d₁, hkinds.trans hus, hseen, imps, d₂, hlen, hreads, hroom, hname⟩
  · rintro ⟨kinds, d₁, hkinds, hseen, imps, d₂, hlen, hreads, hroom, hname⟩
    have hloop : Reads (fwImportCount mem) ⟨s.module, { s.sec with data := d }⟩
        (List.replicate kinds.length ⟨⟩) _ :=
      reads_importCount.mpr ⟨kinds, d₁, List.length_replicate.symm, hseen, rfl⟩
    refine ⟨?_, _, _, ⟨rfl, rfl⟩, List.replicate kinds.length ⟨⟩, _, runs_collect.mpr
      ⟨List.length_replicate.trans hkinds, hloop⟩, ⟨⟩, ⟨⟩, ⟨⟩, imps, d₂, hlen, ?_, hroom, hname⟩
    · rintro rfl
      exact absurd hlen (Nat.not_lt_zero _)
    · simp only [hlast hseen]
      exact hreads

theorem mem_log_sectionImport {pos len : ℕ} :
    .makeStr pos len ∈ (fwModuleSectionImport mem s).log ↔
      ImportName mem (.of s.module) s.sec.data pos len := by
  have hroom (seen : List (Option FwImportKind)) (imps : List LoadedImport) :
      (s.module.countImports seen).allocImports.Room imps ↔ ∀ k ∈ imps.map (·.desc.kind),
        (Counts.of s.module).store ((Counts.of s.module).count seen) (imps.map (·.desc.kind)) k ≤
          ((Counts.of s.module).count seen k).toNat := by
    rw [List.forall_mem_map]
    simp only [← length_addImports]
    exact Iff.rfl
  rw [mem_log_sectionImport_reads]
  simp only [covers_getu32.runs_iff, hroom, ImportName]
  constructor
  · rintro ⟨n, d, ⟨hlast, hn⟩, seen, d₁, hseen, hskim, imps, d₂, hlen, himps, hroom, hname⟩
    obtain ⟨-, hseq⟩ := (covers_importSeen.seq seen d d₁).mp ⟨seen, List.map_id seen, hskim⟩
    obtain ⟨hlast', hseq'⟩ := (covers_importEntry.seq _ d d₂).mp ⟨imps, rfl, himps⟩
    rw [hlast] at hseq hseq'
    rw [hlast', hlast] at hname
    exact ⟨n, d.pos, hn, seen, d₁.pos, hseen, hseq, _, d₂.pos, by rwa [List.length_map], hseq',
      hroom, hname⟩
  · rintro ⟨n, p, hn, seen, q, hseen, hseq, kinds, r, hlen, hseq', hroom, hname⟩
    obtain ⟨imps, rfl, himps⟩ := (covers_importEntry.seq kinds ⟨p, s.sec.data.last⟩
      ⟨r, s.sec.data.last⟩).mpr ⟨rfl, hseq'⟩
    rw [List.length_map] at hlen
    exact ⟨n, ⟨p, s.sec.data.last⟩, ⟨rfl, hn⟩, seen, _, hseen, covers_importSeen.reads hseq, imps,
      _, hlen, himps, hroom, hname⟩

/-! ## Copies inside the section

Where a name lies inside, its copy does. The other way round takes that the copy has at least the
byte that is outside. -/

/-- Every byte that a handler copies stands before the end of its section, whatever the handler
returns in the end. -/
def CopiesInside (m : Load PUnit) (s : LoadState) : Prop :=
  ∀ pos size, .makeStr pos size ∈ (m s).log → ∀ i < size, pos + i < s.sec.data.last

/-- The names fit in what is left of the section behind their lengths. -/
theorem copiesInside_iff {m : Load PUnit} {names : ℕ → ℕ → Prop}
    (hlog : ∀ {pos len}, .makeStr pos len ∈ (m s).log ↔ names pos len)
    (hpos : ∀ pos len, names pos len → pos ≤ s.sec.data.last) :
    CopiesInside m s ↔ ∀ pos len, names pos len → pos + len ≤ s.sec.data.last := by
  refine ⟨?_, ?_⟩
  · intro h pos len hname
    rcases Nat.eq_zero_or_pos len with rfl | hlen
    · exact hpos pos 0 hname
    · have hlast := h pos len (hlog.mpr hname) (len - 1) (by omega)
      omega
  · intro h pos len hcopy i hi
    have hle := h pos len (hlog.mp hcopy)
    omega

/-! ### Imports without tables

The first pass stops at a name that is too long, so the second one is not reached. Behind a table
the second pass is elsewhere, and reads other names. -/

section

variable {last p q q' : ℕ}

theorem NameAt.unique (h : NameAt mem last p q) (h' : NameAt mem last p q') : q = q' := by
  obtain ⟨n, r, hn, -, rfl⟩ := h
  obtain ⟨n', r', hn', -, rfl⟩ := h'
  obtain ⟨rfl, rfl⟩ := covers_getu32.unique hn hn'
  rfl

theorem LimitsAt.unique (h : LimitsAt mem last p q) (h' : LimitsAt mem last p q') : q = q' := by
  obtain ⟨flag, r, hflag, min, r₁, hmin, h⟩ := h
  obtain ⟨flag', r', hflag', min', r₁', hmin', h'⟩ := h'
  obtain ⟨rfl, rfl⟩ := covers_getu32.unique hflag hflag'
  obtain ⟨-, rfl⟩ := covers_getu32.unique hmin hmin'
  split_ifs at h h'
  · obtain ⟨max, hmax⟩ := h
    obtain ⟨max', hmax'⟩ := h'
    exact (covers_getu32.unique hmax hmax').2
  · exact h.symm.trans h'

theorem GlobalTypeAt.unique (h : GlobalTypeAt mem last p q) (h' : GlobalTypeAt mem last p q') :
    q = q' := by
  obtain ⟨type, r, htype, mutable, hmutable⟩ := h
  obtain ⟨type', r', htype', mutable', hmutable'⟩ := h'
  obtain ⟨-, rfl⟩ := covers_getu8.unique htype htype'
  exact (covers_getu8.unique hmutable hmutable').2

/-- The counting pass over an import compares the lengths of its names with what is left. -/
theorem importName_fits {kind : Option FwImportKind} {pos len : ℕ}
    (h : ImportSeenAt mem last kind p q) (hname : ImportNameAt mem last p pos len) :
    pos + len ≤ last := by
  have hfits {p q pos len : ℕ} (h : NameAt mem last p q) (hlen : LengthAt mem last p pos len) :
      pos + len ≤ last := by
    obtain ⟨n, r, hn, hle, -⟩ := h
    obtain ⟨n', hn', rfl⟩ := hlen
    obtain ⟨rfl, rfl⟩ := covers_getu32.unique hn hn'
    exact hle
  obtain ⟨b, r, ⟨r₁, hmname, r₂, hnsname, -⟩, -⟩ := h
  obtain hlen | ⟨r', hmname', hlen⟩ := hname
  · exact hfits hmname hlen
  · obtain rfl := hmname.unique hmname'
    exact hfits hnsname hlen

/-- Over an import that is not a table both passes end at the same byte. -/
theorem importSeen_inStep {kind : Option FwImportKind} {kind' : FwImportKind}
    (h : ImportSeenAt mem last kind p q) (h' : ImportAt mem last kind' p q')
    (hne : kind ≠ some .table) : q = q' := by
  obtain ⟨b, r, ⟨r₁, hmname, r₂, hnsname, hbyte⟩, rfl, hskim⟩ := h
  obtain ⟨b', r', ⟨r₁', hmname', r₂', hnsname', hbyte'⟩, hkind, hdesc⟩ := h'
  obtain rfl := hmname.unique hmname'
  obtain rfl := hnsname.unique hnsname'
  obtain ⟨rfl, rfl⟩ := covers_getu8.unique hbyte hbyte'
  rw [hkind] at hskim hne
  cases kind' with
  | func =>
    obtain ⟨idx, hidx⟩ := hskim
    obtain ⟨idx', hidx'⟩ := hdesc
    exact (covers_getu32.unique hidx hidx').2
  | table => exact absurd rfl hne
  | memory => exact LimitsAt.unique hskim hdesc
  | global => exact GlobalTypeAt.unique hskim hdesc

/-- Where the counting pass has seen no table, the filling pass copies names it has passed over. -/
theorem importName_fits_of_seq {seen : List (Option FwImportKind)} {kinds : List FwImportKind}
    {pos len : ℕ} (hseen : Stretch.Seq (ImportSeenAt mem last) seen p q)
    (hkinds : Stretch.Seq (ImportAt mem last) kinds p q') (hlen : kinds.length < seen.length)
    (hne : some .table ∉ seen) (hname : ImportNameAt mem last q' pos len) : pos + len ≤ last := by
  induction kinds generalizing seen p with
  | nil =>
    obtain ⟨kind, seen, rfl⟩ := List.exists_cons_of_length_pos hlen
    obtain ⟨r, hkind, -⟩ := hseen
    obtain rfl : p = q' := hkinds
    exact importName_fits hkind hname
  | cons kind' kinds ih =>
    obtain ⟨kind, seen, rfl⟩ := List.exists_cons_of_length_pos (Nat.zero_lt_of_lt hlen)
    obtain ⟨r, hkind, hseen⟩ := hseen
    obtain ⟨r', hkind', hkinds⟩ := hkinds
    obtain ⟨hne, hne'⟩ := not_or.mp (List.mem_cons.not.mp hne)
    obtain rfl := importSeen_inStep hkind hkind' (Ne.symm hne)
    exact ih hseen hkinds (Nat.lt_of_succ_lt_succ hlen) hne'

end

/-- The counting pass sees no table among the imports of a payload, if it can read them at all. -/
def SeesNoTable (mem : Mem) (d : FwStr) : Prop :=
  ∀ n p seen q, U32At mem d.last n d.pos p → seen.length = n.toNat →
    Stretch.Seq (ImportSeenAt mem d.last) seen p q → some .table ∉ seen

/-- Both handlers, on a section that holds the lengths of its names: they copy from inside if and
only if no name that they come to is longer than what is left of the section. Where the counting
pass sees no table, the import handler copies nothing from outside whatever the lengths are. The
payload may be any bytes otherwise, and may end anywhere behind such a length. -/
theorem copies_inside_iff (mem : Mem) (s : LoadState) :
    ((∀ pos len, ExportName mem s.sec.data pos len → pos ≤ s.sec.data.last) →
      (CopiesInside (fwModuleSectionExport mem) s ↔
        ∀ pos len, ExportName mem s.sec.data pos len → pos + len ≤ s.sec.data.last)) ∧
    ((∀ pos len, ImportName mem (.of s.module) s.sec.data pos len → pos ≤ s.sec.data.last) →
      (CopiesInside (fwModuleSectionImport mem) s ↔
        ∀ pos len, ImportName mem (.of s.module) s.sec.data pos len →
          pos + len ≤ s.sec.data.last)) ∧
    (SeesNoTable mem s.sec.data → CopiesInside (fwModuleSectionImport mem) s) := by
  refine ⟨copiesInside_iff mem_log_sectionExport, copiesInside_iff mem_log_sectionImport, ?_⟩
  intro h pos size hcopy i hi
  obtain ⟨n, p, hn, seen, q, hseen, hskim, kinds, r, hlen, hkinds, -, hname⟩ :=
    mem_log_sectionImport.mp hcopy
  have hle := importName_fits_of_seq hskim hkinds (hseen ▸ hlen) (h n p seen q hn hseen hskim) hname
  omega

/-! ### Two payloads each

One on which both handlers stay inside and one on which neither does. -/

/-- The names are known from what is copied, so they need not be looked for in the bytes. -/
theorem exportName_of_log {copies : List LoadEvent}
    (h : (fwModuleSectionExport mem s).log = copies) {pos len : ℕ}
    (hname : ExportName mem s.sec.data pos len) :
    .makeStr pos len ∈ copies := by
  rw [← h]
  exact mem_log_sectionExport.mpr hname

theorem importName_of_log {copies : List LoadEvent}
    (h : (fwModuleSectionImport mem s).log = copies) {pos len : ℕ}
    (hname : ImportName mem (.of s.module) s.sec.data pos len) :
    .makeStr pos len ∈ copies := by
  rw [← h]
  exact mem_log_sectionImport.mpr hname

/-- A copy that goes past the end is enough. -/
theorem not_copiesInside_of_log {m : Load PUnit} {copies : List LoadEvent} (h : (m s).log = copies)
    {pos len : ℕ} (hcopy : .makeStr pos len ∈ copies) (hlen : 0 < len)
    (hlast : s.sec.data.last < pos + len) : ¬ CopiesInside m s := by
  intro hinside
  have := hinside pos len (h ▸ hcopy) (len - 1) (by omega)
  omega

/-- Two exports with short names, of different lengths. -/
def shortExport : List UInt8 := [2, 1, 0x61, 0, 2, 2, 0x62, 0x63, 2, 0]

/-- A function and a memory, with short names. -/
def shortImport : List UInt8 := [2, 1, 0x61, 1, 0x62, 0, 0, 1, 0x61, 2, 0x63, 0x64, 2, 0, 1]

theorem seesNoTable_shortImport : SeesNoTable (memOf shortImport) ⟨0, 15⟩ := by
  intro n p seen q hn hlen hseq
  have hcount : Runs (fwStrLebGetu32 (memOf shortImport)) ⟨0, 15⟩ 2 ⟨1, 15⟩ := rfl
  have hreads : Reads (fwImportSeen (memOf shortImport)) ⟨1, 15⟩ [some .func, some .memory]
      ⟨15, 15⟩ := .cons (rfl : _ = Except.ok (_, (⟨7, 15⟩ : FwStr))) (.cons rfl (.nil _))
  obtain ⟨rfl, heq⟩ := (covers_getu32.runs hn).unique hcount
  obtain rfl : p = 1 := congrArg FwStr.pos heq
  obtain ⟨rfl, -⟩ := (covers_importSeen.reads hseq).unique hreads hlen
  decide

/-- Short names are copied from inside, by both handlers. The conditions are about the bytes; here
they are read off the log of the handler, which names what it copied. No table is among the imports.
-/
theorem shortNames_inside :
    CopiesInside (fwModuleSectionExport (memOf shortExport)) (loadStateOf 7 shortExport) ∧
      CopiesInside (fwModuleSectionImport (memOf shortImport)) (loadStateOf 2 shortImport) ∧
      ∀ pos len, ImportName (memOf shortImport) (.of (loadStateOf 2 shortImport).module) ⟨0, 15⟩
        pos len → pos + len ≤ 15 := by
  have hexport : ∀ pos len, ExportName (memOf shortExport) ⟨0, 10⟩ pos len → pos + len ≤ 10 := by
    intro pos len h
    have hlog : (fwModuleSectionExport (memOf shortExport) (loadStateOf 7 shortExport)).log =
      [.makeStr 2 1, .makeStr 6 2] := by decide +kernel
    have hcopy := exportName_of_log hlog h
    simp only [List.mem_cons, List.not_mem_nil, or_false, LoadEvent.makeStr.injEq] at hcopy
    omega
  have himport : ∀ pos len, ImportName (memOf shortImport)
      (.of (loadStateOf 2 shortImport).module) ⟨0, 15⟩ pos len → pos ≤ 15 := by
    intro pos len h
    have hlog : (fwModuleSectionImport (memOf shortImport) (loadStateOf 2 shortImport)).log =
      [.makeStr 2 1, .makeStr 4 1, .makeStr 8 1, .makeStr 10 2] := by decide +kernel
    have hcopy := importName_of_log hlog h
    simp only [List.mem_cons, List.not_mem_nil, or_false, LoadEvent.makeStr.injEq] at hcopy
    omega
  -- no table is among the imports, and so no name is too long
  have hinside := (copies_inside_iff _ (loadStateOf 2 shortImport)).2.2 seesNoTable_shortImport
  exact ⟨((copies_inside_iff _ _).1 fun pos len h => (Nat.le_add_right pos len).trans
    (hexport pos len h)).mpr hexport, hinside, ((copies_inside_iff _ _).2.1 himport).mp hinside⟩

/-- The payload of an export with a name of five bytes, of which one is left. -/
def longExport : List UInt8 := [1, 5, 0x61]

/-- The payload of a table and an import behind it. The counting pass takes the limits of the table
for the lengths of names and passes over the length of the next name, which is 127. -/
def longImport : List UInt8 := [2, 0, 0, 1, 0x70, 0, 5, 0x7f, 0, 0, 0, 0, 0, 0]

/-- Long names are not, where the lengths stand inside. -/
theorem longNames_not_inside :
    ((∀ pos len, ExportName (memOf longExport) ⟨0, 3⟩ pos len → pos ≤ 3) ∧
      ¬ CopiesInside (fwModuleSectionExport (memOf longExport)) (loadStateOf 7 longExport)) ∧
    (∀ pos len, ImportName (memOf longImport) (.of (loadStateOf 2 longImport).module) ⟨0, 14⟩
        pos len → pos ≤ 14) ∧
      ¬ CopiesInside (fwModuleSectionImport (memOf longImport)) (loadStateOf 2 longImport) := by
  have hexport : (fwModuleSectionExport (memOf longExport) (loadStateOf 7 longExport)).log =
    [.makeStr 2 5] := by decide +kernel
  have himport : (fwModuleSectionImport (memOf longImport) (loadStateOf 2 longImport)).log =
    [.makeStr 2 0, .makeStr 3 0, .makeStr 8 127] := by decide +kernel
  have hmem : LoadEvent.makeStr 8 127 ∈ [.makeStr 2 0, .makeStr 3 0, .makeStr 8 127] := by decide
  have hlast : (loadStateOf 7 longExport).sec.data.last < 2 + 5 := by decide
  have hlast' : (loadStateOf 2 longImport).sec.data.last < 8 + 127 := by decide
  refine ⟨⟨fun pos len h => ?_, not_copiesInside_of_log hexport (List.mem_singleton_self _)
    (by decide) hlast⟩, fun pos len h => ?_, not_copiesInside_of_log himport hmem (by decide)
    hlast'⟩
  · have hcopy := exportName_of_log hexport h
    simp only [List.mem_singleton, LoadEvent.makeStr.injEq] at hcopy
    omega
  · have hcopy := importName_of_log himport h
    simp only [List.mem_cons, List.not_mem_nil, or_false, LoadEvent.makeStr.injEq] at hcopy
    omega

end FastWasm
