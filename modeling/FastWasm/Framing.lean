import FastWasm.Loader

/-!
# The sections of a file

`_fw_module_load` adds the size of a section to its cursor and never looks whether that many bytes
are left. The sections it returns still lie in the file one behind the other: the cursor only moves
forward, and in the end it has to be at the end of the file.

Framing is said twice. Of a file that was written (`encodeFile`) every section comes back as the
slice that holds its payload, by induction on the sections. Of arbitrary bytes all that is known is
that the load returned; what it has returned lies between the two ends of a cursor that went from
one section to the next (`Laid`), and the order, the bounds and the last section follow from that. A
size so large that the cursor wraps would be another matter, but an address has more bits than a
size.
-/

namespace FastWasm

open Logged (Fallible)
open Logged.Fallible

/-! ## Files

A file is written as a list of sections, without looking into them. -/

/-- One section as it is written: the id, the bytes of its size, and the payload. The size may be
padded, so it is kept as bytes. -/
structure RawSection where
  /-- the id -/
  type : UInt8
  /-- the size, as a LEB128 number -/
  size : List UInt8
  /-- the contents -/
  payload : List UInt8

namespace RawSection

/-- The id exists and the size is that of the payload. -/
structure WellFormed (sec : RawSection) : Prop where
  /-- an id below `FW_SECTION_TYPE_MAX` -/
  type_lt : sec.type < fwSectionTypeMax
  /-- the size in one to five bytes -/
  size_spells : Leb128.Spells 32 sec.payload.length sec.size

/-- The bytes of a section: the id, the size and the payload. -/
def encode (sec : RawSection) : List UInt8 := sec.type :: sec.size ++ sec.payload

/-- The section at an address: its id and where its payload lies. -/
def at_ (pos : ℕ) (sec : RawSection) : FwModuleSection :=
  let start := pos + 1 + sec.size.length
  ⟨sec.type, ⟨start, start + sec.payload.length⟩, false⟩

theorem at_last (pos : ℕ) (sec : RawSection) :
    (sec.at_ pos).data.last = pos + sec.encode.length := by
  simp only [at_, encode, List.length_append, List.length_cons]
  omega

end RawSection

/-- The magic number and the version, in eight bytes. -/
def wasmHeader : List UInt8 := [0x00, 0x61, 0x73, 0x6d, 0x01, 0x00, 0x00, 0x00]

/-- The bytes of a file: the header and its sections. -/
def encodeFile (secs : List RawSection) : List UInt8 := wasmHeader ++ secs.flatMap RawSection.encode

/-- The sections, one behind the other from an address on. -/
def layout : ℕ → List RawSection → List FwModuleSection
  | _, [] => []
  | pos, sec :: secs => sec.at_ pos :: layout (sec.at_ pos).data.last secs

/-- `code_ref` after some more sections: the last code section, if there is one. -/
def lastCode : Option FwStr → List FwModuleSection → Option FwStr
  | codeRef, [] => codeRef
  | codeRef, sec :: secs =>
    lastCode (if sec.type = fwSectionTypeCode then some sec.data else codeRef) secs

/-! ## The loop

Each round reads an id and a size and moves the cursor over the payload without reading it. The loop
ends when the cursor is at the end of the file, or behind it; in the latter case the load fails. -/

section Loop

variable {mem : Mem}

/-- One round of the loop that finds a section, and the rounds behind it. -/
theorem runs_loadSections_succ {n : ℕ} {codeRef codeRef' : Option FwStr}
    {secs : List FwModuleSection} {str str' : FwStr} (hlt : str.pos < str.last) :
    Runs (fwLoadSections mem (n + 1) codeRef) str (secs, codeRef') str' ↔
      mem str.pos < fwSectionTypeMax ∧ ∃ size d,
        Runs (fwStrLebGetu32 mem) ⟨str.pos + 1, str.last⟩ size d ∧ ∃ rest,
        Runs (fwLoadSections mem n (if mem str.pos = fwSectionTypeCode then
          some ⟨d.pos, d.pos + size.toNat⟩ else codeRef)) ⟨d.pos + size.toNat, d.last⟩
          (rest, codeRef') str' ∧
        secs = ⟨mem str.pos, ⟨d.pos, d.pos + size.toNat⟩, false⟩ :: rest := by
  rw [fwLoadSections]
  simp only [runs_bind, runs_get, runs_ite, hlt, runs_get8, runs_check, runs_seek, runs_pure,
    Prod.mk.injEq, Prod.exists, UInt8.not_le, ge_iff_le, and_assoc, exists_and_left, exists_eq_left,
    exists_const, true_and, not_true, false_and, or_false]
  refine and_congr_right fun _ => exists_congr fun size => exists_congr fun d => ?_
  refine ⟨?_, ?_⟩
  · rintro ⟨hsize, rest, _, _, hrest, rfl, rfl, rfl⟩
    exact ⟨hsize, rest, hrest, rfl⟩
  · rintro ⟨hsize, rest, hrest, rfl⟩
    exact ⟨hsize, rest, _, _, hrest, rfl, rfl, rfl⟩

/-- The last round, with the cursor at the end or behind it. -/
theorem runs_loadSections_of_le {n : ℕ} {codeRef codeRef' : Option FwStr}
    {secs : List FwModuleSection} {str str' : FwStr} (hle : str.last ≤ str.pos) :
    Runs (fwLoadSections mem (n + 1) codeRef) str (secs, codeRef') str' ↔
      secs = [] ∧ codeRef' = codeRef ∧ str' = str := by
  rw [fwLoadSections]
  simp only [runs_bind, runs_get, runs_ite, runs_pure, Prod.mk.injEq, and_assoc, exists_and_left,
    exists_eq_left, Nat.not_lt.mpr hle, false_and, false_or, not_false_eq_true, true_and]

/-- The sections lie one behind the other between two addresses, and the last one ends there.
Between two of them are an id and a size. -/
def Laid : ℕ → List FwModuleSection → ℕ → Prop
  | p, [], q => p = q
  | p, sec :: secs, q =>
    sec.type < fwSectionTypeMax ∧ p < sec.data.pos ∧ sec.data.pos ≤ sec.data.last ∧
      Laid sec.data.last secs q

/-- Whatever the loop returns lies one behind the other up to where its cursor ends. -/
theorem laid_of_loadSections :
    ∀ {n : ℕ} {codeRef codeRef' : Option FwStr} {secs : List FwModuleSection} {str str' : FwStr},
      Runs (fwLoadSections mem n codeRef) str (secs, codeRef') str' →
        Laid str.pos secs str'.pos ∧ codeRef' = lastCode codeRef secs ∧ str'.last = str.last
  | 0, _, _, _, _, _, h => (runs_halt.mp h).elim
  | n + 1, codeRef, codeRef', secs, str, str', h => by
    rcases Nat.lt_or_ge str.pos str.last with hlt | hge
    · obtain ⟨htype, size, d, hsize, rest, hrest, rfl⟩ := (runs_loadSections_succ hlt).mp h
      obtain ⟨hlaid, hcode, hlast⟩ := laid_of_loadSections hrest
      obtain ⟨hpos, hlast'⟩ := Forward.getu32 hsize
      exact ⟨⟨htype, hpos, Nat.le_add_right _ _, hlaid⟩, hcode, hlast.trans hlast'⟩
    · obtain ⟨rfl, rfl, rfl⟩ := (runs_loadSections_of_le hge).mp h
      exact ⟨rfl, rfl, rfl⟩

/-- The loop over well-formed sections that end the file. By induction on the sections: a round
reads the type and the size and steps over the payload, and the data of the last code section is
remembered. -/
theorem loadSections_of_encode {secs : List RawSection} :
    ∀ {n : ℕ} (str : FwStr) (codeRef : Option FwStr), (∀ sec ∈ secs, sec.WellFormed) →
      Holds mem str.pos (secs.flatMap RawSection.encode) →
      str.last = str.pos + (secs.flatMap RawSection.encode).length → str.last - str.pos < n →
      Runs (fwLoadSections mem n codeRef) str
        (layout str.pos secs, lastCode codeRef (layout str.pos secs)) ⟨str.last, str.last⟩ := by
  induction secs with
  | nil =>
    intro n str codeRef _ _ hlast hn
    obtain ⟨n, rfl⟩ : ∃ n', n = n' + 1 := ⟨n - 1, by omega⟩
    have hlast : str.last = str.pos := hlast
    apply (runs_loadSections_of_le hlast.le).mpr
    refine ⟨rfl, rfl, ?_⟩
    rw [hlast]
    exact congrArg (FwStr.mk str.pos) hlast.symm
  | cons sec secs ih =>
    intro n str codeRef hwf hm hlast hn
    obtain ⟨hsec, hwf⟩ := List.forall_mem_cons.mp hwf
    obtain ⟨n, rfl⟩ : ∃ n', n = n' + 1 := ⟨n - 1, by omega⟩
    rw [List.flatMap_cons] at hm hlast
    rw [List.length_append] at hlast
    obtain ⟨hm, hrest⟩ := (holds_append ..).mp hm
    rw [← sec.at_last str.pos] at hrest
    have hnext := sec.at_last str.pos
    have hlen : sec.encode.length = 1 + sec.size.length + sec.payload.length := by
      simp only [RawSection.encode, List.length_append, List.length_cons]
      omega
    obtain ⟨⟨htype, hsize⟩, -⟩ := (holds_append mem str.pos (sec.type :: sec.size) _).mp hm
    have hread := ReadsAs.getu32 hsec.size_spells ⟨str.pos + 1, str.last⟩ hsize
      (by simp only; omega)
    have hpayload : (UInt32.ofNat sec.payload.length).toNat = sec.payload.length :=
      Nat.mod_eq_of_lt hsec.size_spells.1
    apply (runs_loadSections_succ (by omega)).mpr
    refine ⟨htype ▸ hsec.type_lt, _, _, hread, layout (sec.at_ str.pos).data.last secs, ?_, ?_⟩
    · rw [hpayload, htype]
      exact ih ⟨(sec.at_ str.pos).data.last, str.last⟩ _ hwf hrest
        (by simp only; omega) (by simp only; omega)
    · rw [hpayload, htype]
      rfl

/-- There are rounds enough, as each of them moves the cursor. -/
theorem loadSections_ne_fuel :
    ∀ {n : ℕ} {str : FwStr} (codeRef : Option FwStr), str.last - str.pos < n →
      ¬ Halts (fwLoadSections mem n codeRef) str .fuel
  | 0, str, _, hn => absurd hn (Nat.not_lt_zero _)
  | n + 1, str, codeRef, hn => by
    rw [fwLoadSections]
    simp only [halts_bind, halts_get, halts_ite, halts_check, halts_get8, halts_pure, Parse.seek,
      halts_modify, runs_get, runs_get8, runs_check, runs_modify, and_assoc, exists_and_left,
      exists_eq_left, exists_const, false_or, and_false, exists_false, or_false]
    rintro ⟨hlt, -, -, h | ⟨size, d, hsize, h⟩⟩
    · cases halts_getu32 h
    · obtain ⟨hpos, hlast⟩ := Forward.getu32 hsize
      exact loadSections_ne_fuel _ (by simp only at hpos hlast ⊢; omega) h

end Loop

/-! ## The file

The header in front, the sections, and the last code section among them. -/

section File

variable {mem : Mem} {str str' : FwStr} {module : LoadedModule}

/-- What a file that was loaded consists of: a header, sections up to its end, and a code section.
-/
theorem runs_load :
    Runs (_fwModuleLoad mem) str module str' ↔
      str.pos + 8 ≤ str.last ∧ wordAt mem str.pos = fwMagicNumber ∧
        wordAt mem (str.pos + 4) = fwVersion ∧ ∃ secs codeRef,
          Runs (fwLoadSections mem (str.last - (str.pos + 8) + 1) none) ⟨str.pos + 8, str.last⟩
            (secs, some codeRef) str' ∧ str'.pos = str'.last ∧ module = .new secs codeRef := by
  rw [_fwModuleLoad]
  simp only [runs_bind, runs_get, runs_get32, runs_check, Prod.exists, and_assoc, exists_and_left,
    exists_eq_left, exists_const]
  refine ⟨?_, ?_⟩
  · rintro ⟨-, hmagic, hle, hversion, secs, _ | codeRef, d, hsecs, h⟩
    · exact (runs_fail.mp h).elim
    · simp only [runs_bind, runs_consumed, runs_pure, and_assoc, exists_and_left, exists_eq_left,
        exists_const] at h
      obtain ⟨hend, rfl, rfl⟩ := h
      exact ⟨hle, hmagic, hversion, secs, codeRef, hsecs, hend, rfl⟩
  · rintro ⟨hle, hmagic, hversion, secs, codeRef, hsecs, hend, rfl⟩
    refine ⟨by omega, hmagic, hle, hversion, secs, some codeRef, str', hsecs, ?_⟩
    exact runs_bind.mpr ⟨⟨⟩, str', runs_consumed.mpr ⟨hend, rfl⟩, runs_pure.mpr ⟨rfl, rfl⟩⟩

theorem wordAt_of_header (h : Holds mem str.pos wasmHeader) :
    wordAt mem str.pos = fwMagicNumber ∧ wordAt mem (str.pos + 4) = fwVersion := by
  obtain ⟨h0, h1, h2, h3, h4, h5, h6, h7, -⟩ := h
  simp only [wordAt, h0, h1, h2, h3, h4, h5, h6, h7]
  decide

/-- Sections laid out between two addresses lie between them, in order. -/
theorem Laid.bounds :
    ∀ {secs : List FwModuleSection} {p q : ℕ}, Laid p secs q →
      p ≤ q ∧ (∀ sec ∈ secs, sec.type < fwSectionTypeMax ∧ p ≤ sec.data.pos ∧
        sec.data.pos ≤ sec.data.last ∧ sec.data.last ≤ q) ∧
      secs.Pairwise (fun a b => a.data.last ≤ b.data.pos) ∧
      ∀ sec, secs.getLast? = some sec → sec.data.last = q
  | [], p, q, h => by
    obtain rfl : p = q := h
    exact ⟨le_rfl, by simp, .nil, by simp⟩
  | sec :: secs, p, q, ⟨htype, hlt, hle, h⟩ => by
    obtain ⟨hpq, hall, hpair, hlast⟩ := h.bounds
    refine ⟨by omega, List.forall_mem_cons.mpr ⟨⟨htype, hlt.le, hle, hpq⟩, fun s hs => ?_⟩,
      .cons (fun s hs => (hall s hs).2.1) hpair, fun s hs => ?_⟩
    · obtain ⟨h₁, h₂, h₃, h₄⟩ := hall s hs
      exact ⟨h₁, by omega, h₃, h₄⟩
    · cases secs with
      | nil =>
        obtain rfl : sec = s := by simpa using hs
        exact h
      | cons sec' secs => exact hlast s (by simpa using hs)

/-- `code_ref` is that of the last code section, or what it was before when there is none among
these. -/
theorem lastCode_eq_some {d : FwStr} :
    ∀ {secs : List FwModuleSection} {codeRef : Option FwStr}, lastCode codeRef secs = some d →
      (codeRef = some d ∧ ∀ sec ∈ secs, sec.type ≠ fwSectionTypeCode) ∨
        ∃ pre sec post, secs = pre ++ sec :: post ∧ sec.type = fwSectionTypeCode ∧
          (∀ s ∈ post, s.type ≠ fwSectionTypeCode) ∧ d = sec.data
  | [], _, h => .inl ⟨h, by simp⟩
  | sec :: secs, codeRef, h => by
    rw [lastCode] at h
    rcases lastCode_eq_some h with ⟨h, hall⟩ | ⟨pre, sec', post, rfl, hcode, hpost, hd⟩
    · by_cases hsec : sec.type = fwSectionTypeCode
      · rw [if_pos hsec, Option.some.injEq] at h
        exact .inr ⟨[], sec, secs, rfl, hsec, hall, h.symm⟩
      · rw [if_neg hsec] at h
        exact .inl ⟨h, List.forall_mem_cons.mpr ⟨hsec, hall⟩⟩
    · exact .inr ⟨sec :: pre, sec', post, rfl, hcode, hpost, hd⟩

/-- A code section sets `code_ref`. -/
theorem lastCode_isSome {codeRef : Option FwStr} {secs : List FwModuleSection}
    (h : codeRef.isSome ∨ ∃ sec ∈ secs, sec.type = fwSectionTypeCode) :
    (lastCode codeRef secs).isSome := by
  induction secs generalizing codeRef with
  | nil =>
    rw [lastCode]
    simpa using h
  | cons sec secs ih =>
    rw [lastCode]
    apply ih
    by_cases hsec : sec.type = fwSectionTypeCode
    · exact .inl (by rw [if_pos hsec]; rfl)
    · rw [if_neg hsec]
      rcases h with h | ⟨s, hs, hs'⟩
      · exact .inl h
      · rcases List.mem_cons.mp hs with rfl | hs
        · exact absurd hs' hsec
        · exact .inr ⟨s, hs, hs'⟩

/-- A section of the module is the slice of the file that holds the payload, and has the same id. -/
def RawSection.IsSlice (mem : Mem) (raw : RawSection) (sec : FwModuleSection) : Prop :=
  sec.type = raw.type ∧ Holds mem sec.data.pos raw.payload ∧
    sec.data.last = sec.data.pos + raw.payload.length

theorem isSlice_layout {secs : List RawSection} {pos : ℕ}
    (h : Holds mem pos (secs.flatMap RawSection.encode)) :
    List.Forall₂ (RawSection.IsSlice mem) secs (layout pos secs) := by
  induction secs generalizing pos with
  | nil => exact .nil
  | cons sec secs ih =>
    rw [List.flatMap_cons] at h
    obtain ⟨hsec, hrest⟩ := (holds_append ..).mp h
    obtain ⟨-, hpayload⟩ := (holds_append mem pos (sec.type :: sec.size) _).mp hsec
    rw [← sec.at_last pos] at hrest
    refine .cons ⟨rfl, ?_, rfl⟩ (ih hrest)
    simp only [RawSection.at_]
    rwa [List.length_cons, show pos + (sec.size.length + 1) = pos + 1 + sec.size.length by omega]
      at hpayload

theorem exists_code_layout {secs : List RawSection} (pos : ℕ)
    (h : ∃ sec ∈ secs, sec.type = fwSectionTypeCode) :
    ∃ sec ∈ layout pos secs, sec.type = fwSectionTypeCode := by
  induction secs generalizing pos with
  | nil => obtain ⟨_, h, -⟩ := h; cases h
  | cons sec secs ih =>
    obtain ⟨s, hs, hcode⟩ := h
    rcases List.mem_cons.mp hs with rfl | hs
    · exact ⟨_, List.mem_cons_self, hcode⟩
    · obtain ⟨s', hs', hcode'⟩ := ih (sec.at_ pos).data.last ⟨s, hs, hcode⟩
      exact ⟨s', List.mem_cons_of_mem _ hs', hcode'⟩

/-- A well-formed file loads, and its sections are the ones that were written. -/
theorem load_of_encodeFile {secs : List RawSection} (hwf : ∀ sec ∈ secs, sec.WellFormed)
    (hcode : ∃ sec ∈ secs, sec.type = fwSectionTypeCode)
    (hm : Holds mem str.pos (encodeFile secs))
    (hlast : str.last = str.pos + (encodeFile secs).length) :
    ∃ module, Runs (_fwModuleLoad mem) str module ⟨str.last, str.last⟩ ∧
      module.sections = layout (str.pos + 8) secs := by
  obtain ⟨hheader, hsecs⟩ := (holds_append ..).mp hm
  obtain ⟨hmagic, hversion⟩ := wordAt_of_header hheader
  rw [encodeFile, List.length_append, show wasmHeader.length = 8 from rfl] at hlast
  have hrun := loadSections_of_encode (n := str.last - (str.pos + 8) + 1)
    ⟨str.pos + 8, str.last⟩ none hwf hsecs (by simp only; omega) (by simp only; omega)
  obtain ⟨codeRef, href⟩ := Option.isSome_iff_exists.mp <|
    lastCode_isSome (.inr (exists_code_layout (str.pos + 8) hcode))
  rw [href] at hrun
  exact ⟨_, runs_load.mpr ⟨by omega, hmagic, hversion, _, codeRef, hrun, rfl, rfl⟩, rfl⟩

/-- What was loaded lies in the file, section by section, up to its end. -/
theorem laid_of_load (h : Runs (_fwModuleLoad mem) str module str') :
    Laid (str.pos + 8) module.sections str.last ∧
      lastCode none module.sections = some module.codeRef := by
  obtain ⟨-, -, -, secs, codeRef, hsecs, hend, rfl⟩ := runs_load.mp h
  obtain ⟨hlaid, hcode, hlast⟩ := laid_of_loadSections hsecs
  rw [hend, hlast] at hlaid
  exact ⟨hlaid, hcode.symm⟩

end File

/-- Framing, in both directions and for every memory and cursor. A file of well-formed sections with
a code section among them loads, and the section list of the module is exactly these sections and
the slices of the file that hold their payloads. And whatever loads, the sections of the module have
ids that exist, lie in the file in order and without overlap, the last one up to its end, and
`code_ref` is the last code section. The payloads may be anything: no handler is called yet. -/
theorem load_framing (mem : Mem) (str : FwStr) :
    (∀ secs : List RawSection, (∀ sec ∈ secs, sec.WellFormed) →
      (∃ sec ∈ secs, sec.type = fwSectionTypeCode) → Holds mem str.pos (encodeFile secs) →
      str.last = str.pos + (encodeFile secs).length →
        ∃ module str', Runs (_fwModuleLoad mem) str module str' ∧
          module.sections = layout (str.pos + wasmHeader.length) secs ∧
          List.Forall₂ (RawSection.IsSlice mem) secs module.sections) ∧
    ∀ module str', Runs (_fwModuleLoad mem) str module str' →
      (∀ sec ∈ module.sections, sec.type < fwSectionTypeMax ∧ str.pos ≤ sec.data.pos ∧
        sec.data.pos ≤ sec.data.last ∧ sec.data.last ≤ str.last) ∧
      module.sections.Pairwise (fun a b => a.data.last ≤ b.data.pos) ∧
      (∀ sec, module.sections.getLast? = some sec → sec.data.last = str.last) ∧
      ∃ pre sec post, module.sections = pre ++ sec :: post ∧ sec.type = fwSectionTypeCode ∧
        (∀ s ∈ post, s.type ≠ fwSectionTypeCode) ∧ module.codeRef = sec.data := by
  refine ⟨?_, ?_⟩
  · intro secs hwf hcode hm hlast
    obtain ⟨module, hrun, hsecs⟩ := load_of_encodeFile hwf hcode hm hlast
    refine ⟨module, _, hrun, hsecs, ?_⟩
    rw [hsecs]
    exact isSlice_layout ((holds_append ..).mp hm).2
  · intro module str' h
    obtain ⟨hlaid, hcode⟩ := laid_of_load h
    obtain ⟨-, hall, hpair, hlast⟩ := hlaid.bounds
    refine ⟨fun sec hsec => ?_, hpair, hlast, ?_⟩
    · obtain ⟨htype, hpos, hle, hlast⟩ := hall sec hsec
      exact ⟨htype, by omega, hle, hlast⟩
    · rcases lastCode_eq_some hcode with ⟨hnone, -⟩ | hsome
      · cases hnone
      · exact hsome

/-- A custom section, a code section, and behind it an export section whose size takes two bytes. -/
def threeSections : List RawSection :=
  [⟨0, [0x02], [0x01, 0x61]⟩, ⟨fwSectionTypeCode, [0x01], [0x00]⟩,
    ⟨7, [0x85, 0x00], [0x01, 0x01, 0x61, 0x00, 0x00]⟩]

/-- They load, in their order and as the slices that hold their payloads. -/
theorem load_threeSections :
    ∃ module str', Runs (_fwModuleLoad (memOf (encodeFile threeSections))) ⟨0, 23⟩ module str' ∧
      module.sections = layout (0 + wasmHeader.length) threeSections ∧
      List.Forall₂ (RawSection.IsSlice (memOf (encodeFile threeSections))) threeSections
        module.sections :=
  (load_framing (memOf (encodeFile threeSections)) ⟨0, 23⟩).1 threeSections
    (by
      simp only [threeSections, List.forall_mem_cons]
      exact ⟨⟨by decide, by decide⟩, ⟨by decide, by decide⟩, ⟨by decide, by decide⟩, by simp⟩)
    ⟨⟨fwSectionTypeCode, [0x01], [0x00]⟩, by simp [threeSections], rfl⟩ (holds_memOf _) rfl

end FastWasm
