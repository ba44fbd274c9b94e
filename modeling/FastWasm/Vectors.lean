import FastWasm.Imports
import FastWasm.ConstExprs

/-!
# Sections that are one vector

What the handlers of vector sections make of encodings: one lemma for all of them
(`vecSection_loads`), and its instances for globals, exports and data segments
(`sections_roundTrip`), whose entries are read as they were encoded.

An entry is read from any of its encodings, wherever it stands and whatever follows, and then so is
a list of them. What an entry keeps of its value is a relation (`Stored`), since a name or the bytes
of a segment are slices of the file in the loaded module and bytes in what was encoded.
-/

namespace FastWasm

open Logged (Fallible Part)
open Logged.Fallible
open Leb128

variable {mem : Mem} {s s' : LoadState}

/-! ## Loading a vector

The handler stores the count and then reads entries, so what it leaves is a count and a list of what
it has read. -/

/-- A handler that was called in `s` and returned in `s'` has consumed its section and stored the
values `as` in order; `P` says what an entry has of its value. For no values it leaves the count as
it is. -/
structure VecLoaded {α β : Type} (cnt : Part LoadedModule UInt32)
    (items : Part LoadedModule (List β)) (P : α → β → Prop) (as : List α) (s s' : LoadState) :
    Prop where
  /-- the section is consumed -/
  consumed : s'.sec.data.pos = s'.sec.data.last
  /-- the count -/
  count : (as = [] → cnt.get s.module = 0) → (cnt.get s'.module).toNat = as.length
  /-- the entries -/
  entries : List.Forall₂ P as ((items.get s'.module).take as.length)

section

variable {α β : Type} {cnt : Part LoadedModule UInt32} {items : Part LoadedModule (List β)}
  {entry : Parse β} {E : α → List UInt8 → Prop} {P : α → β → Prop} {as : List α} {bs : List UInt8}

/-- A vector section returns `FW_OK` for an encoding of values whose encodings are read. -/
theorem vecSection_loads (hcnt : Part.Apart cnt items)
    (hread : ∀ a ∈ as, ∀ bs, E a bs → ReadsTo mem entry bs (P a)) (hbs : Vec E as bs)
    (hpay : Payload mem s.sec.data bs) :
    ∃ s', Runs (fwVecSection mem cnt items entry) s ⟨⟩ s' ∧ VecLoaded cnt items P as s s' := by
  obtain ⟨d, es, hn, hlen, hes, hd⟩ := hpay.count hbs
  have hend := hd.last.symm
  by_cases hz : UInt32.ofNat as.length = 0
  · obtain rfl := eq_nil_of_count hlen hz
    obtain rfl : es = [] := by cases hes; rfl
    exact ⟨_, runs_vecSection.mpr ⟨_, d, hn, .inr ⟨not_not.mpr hz, hend, rfl⟩⟩, hend,
      fun h => congrArg UInt32.toNat (h rfl), .nil⟩
  · obtain ⟨vs, hvs, hPs⟩ := reads_of_concat hread hes d hd.holds hd.last.ge
    refine ⟨_, runs_vecSection.mpr ⟨_, d, hn, .inl ⟨hz, vs, ?_, _, hvs, hend, rfl⟩⟩, hend,
      fun _ => ?_, ?_⟩
    · rw [hlen, hPs.length_eq]
    · rw [hcnt.get_put, cnt.get_put, hlen]
    · rw [items.get_put, hPs.length_eq, List.take_length]
      exact hPs

end

/-! ## Globals

A global is two bytes and an initial value, which is passed over. -/

/-- A global before it is encoded: its type, whether it may change, and its initial value. -/
structure GlobalSpec where
  /-- the value type -/
  type : UInt8
  /-- whether it is mutable -/
  mutable : UInt8
  /-- the initial value -/
  init : ConstExpr

/-- The encoding of a global: two bytes below `0x80` and the initial value. -/
def GlobalSpec.Encodes (g : GlobalSpec) (bs : List UInt8) : Prop :=
  g.type < 0x80 ∧ g.mutable < 0x80 ∧ ∃ e, g.init.Encodes e ∧ bs = [g.type] ++ ([g.mutable] ++ e)

/-- The entry is that of the global. Its initial value is not stored. -/
def GlobalSpec.Stored (g : GlobalSpec) (entry : FwModuleGlobal) : Prop :=
  entry.type = g.type ∧ entry.mutable = g.mutable

theorem readsTo_globalEntry {g : GlobalSpec} {bs : List UInt8} (h : g.Encodes bs) :
    ReadsTo mem (fwGlobalEntry mem) bs g.Stored := by
  obtain ⟨htype, hmut, e, he, rfl⟩ := h
  have hread : ReadsAs mem (fwGlobalEntry mem) _ ⟨g.type, g.mutable⟩ :=
    (ReadsAs.getu8 htype).bind ((ReadsAs.getu8 hmut).bind
      ((readsAs_parseExpr he).bind_pure fun _ => (⟨g.type, g.mutable⟩ : FwModuleGlobal)))
  exact fun str hm hlast => ⟨_, hread str hm hlast, rfl, rfl⟩

/-! ## Exports

A name with its length, a byte for the kind, and an index. -/

/-- An export before it is encoded, of any kind. -/
structure ExportSpec where
  /-- the name -/
  name : List UInt8
  /-- the kind -/
  kind : UInt8
  /-- the index -/
  idx : UInt32

/-- The encoding of an export: the name with its length, the kind and the index. -/
def ExportSpec.Encodes (x : ExportSpec) (bs : List UInt8) : Prop :=
  ∃ nl is, Spells 32 x.name.length nl ∧ Spells 32 x.idx.toNat is ∧
    bs = (nl ++ x.name) ++ ([x.kind] ++ is)

/-- The entry is that of the export: its name, its kind and its index. -/
def ExportSpec.Stored (x : ExportSpec) (entry : LoadedExport) : Prop :=
  entry.name = x.name ∧ entry.kind = x.kind ∧ entry.idx = x.idx

theorem readsTo_exportEntry {x : ExportSpec} {bs : List UInt8} (h : x.Encodes bs) :
    ReadsTo mem (fwExportEntry mem) bs x.Stored := by
  obtain ⟨nl, is, hnl, his, rfl⟩ := h
  intro str hm hlast
  have hlen : (UInt32.ofNat x.name.length).toNat = x.name.length := Nat.mod_eq_of_lt hnl.1
  obtain ⟨hm₁, hm₃⟩ := (holds_append ..).mp hm
  obtain ⟨hm₁, hm₂⟩ := (holds_append ..).mp hm₁
  obtain ⟨hm₃, hm₄⟩ := (holds_append ..).mp hm₃
  simp only [List.length_append, List.length_singleton] at hlast hm₃ hm₄ ⊢
  have h₁ := ReadsAs.getu32 hnl str hm₁ (by omega)
  have h₂ := readsAs_get8 x.kind ⟨str.pos + (nl.length + x.name.length), str.last⟩ hm₃
    (by simp only [List.length_singleton]; omega)
  have h₃ := ReadsAs.getu32_toNat his ⟨str.pos + (nl.length + x.name.length) + 1, str.last⟩ hm₄
    (by simp only; omega)
  refine ⟨⟨x.name, x.kind, x.idx⟩, ?_, rfl, rfl, rfl⟩
  rw [fwExportEntry]
  simp only [runs_bind, runs_makeStr, runs_pass, runs_pure]
  refine ⟨_, _, h₁, _, _, ⟨rfl, rfl⟩, ⟨⟩, _, ⟨?_, rfl⟩, x.kind, _, ?_, _, _, h₃, ?_, ?_⟩
  · rw [hlen]
    simp only
    omega
  · rw [hlen, Nat.add_assoc]
    exact h₂
  · rw [hlen, bytesAt_of_holds hm₂]
  · simp only [FwStr.mk.injEq, and_true]
    omega

/-! ## Data segments

A memory, an offset and bytes with their number. -/

/-- A data segment before it is encoded, with any bytes. -/
structure DataSpec where
  /-- the memory -/
  memIdx : UInt32
  /-- where the bytes go -/
  offset : ConstExpr
  /-- the bytes -/
  bytes : List UInt8

/-- The encoding of a data segment: the memory, the offset, the bytes with their number. -/
def DataSpec.Encodes (seg : DataSpec) (bs : List UInt8) : Prop :=
  ∃ ms e ls, Spells 32 seg.memIdx.toNat ms ∧ seg.offset.Encodes e ∧
    Spells 32 seg.bytes.length ls ∧ bs = ms ++ (e ++ (ls ++ seg.bytes))

/-- The entry is that of the segment: its memory and its bytes. The offset is passed over and not
kept. -/
def DataSpec.Stored (mem : Mem) (seg : DataSpec) (entry : FwModuleData) : Prop :=
  entry.memIdx = seg.memIdx ∧ entry.dataLen.toNat = seg.bytes.length ∧
    Holds mem entry.data seg.bytes

theorem readsTo_dataEntry {seg : DataSpec} {bs : List UInt8} (h : seg.Encodes bs) :
    ReadsTo mem (fwDataEntry mem) bs (seg.Stored mem) := by
  obtain ⟨ms, e, ls, hms, he, hls, rfl⟩ := h
  intro str hm hlast
  have hlen : (UInt32.ofNat seg.bytes.length).toNat = seg.bytes.length := Nat.mod_eq_of_lt hls.1
  obtain ⟨hm₁, hm⟩ := (holds_append ..).mp hm
  obtain ⟨hm₂, hm⟩ := (holds_append ..).mp hm
  obtain ⟨hm₃, hm₄⟩ := (holds_append ..).mp hm
  simp only [List.length_append] at hlast ⊢
  have h₁ := ReadsAs.getu32_toNat hms str hm₁ (by omega)
  have h₂ := readsAs_parseExpr he ⟨str.pos + ms.length, str.last⟩ hm₂ (by simp only; omega)
  have h₃ := ReadsAs.getu32 hls ⟨str.pos + ms.length + e.length, str.last⟩ hm₃
    (by simp only; omega)
  refine ⟨⟨UInt32.ofNat seg.bytes.length, seg.memIdx, str.pos + ms.length + e.length + ls.length⟩,
    ?_, rfl, hlen, hm₄⟩
  rw [fwDataEntry]
  simp only [runs_bind, runs_get, runs_pass, runs_pure]
  refine ⟨_, _, h₁, _, _, h₂, _, _, h₃, _, _, ⟨rfl, rfl⟩, ⟨⟩, _, ⟨?_, rfl⟩, rfl, ?_⟩
  · rw [hlen]
    simp only
    omega
  · rw [hlen]
    simp only [FwStr.mk.injEq, and_true]
    omega

/-! ## The round trips

The three are instances of the lemma about vectors, each by the lemma about its entry. -/

/-- Globals, exports and data segments come back from their encodings. The lists are any, the
initial values and offsets are constant expressions of every form, and numbers may be padded; the
handlers are called in any state in which the payload is that of the section. -/
theorem sections_roundTrip (mem : Mem) (s : LoadState) :
    (∀ gs bs, Vec GlobalSpec.Encodes gs bs → Payload mem s.sec.data bs →
      ∃ s', Runs (fwModuleSectionGlobal mem) s ⟨⟩ s' ∧
        VecLoaded globalCntPart globalsPart GlobalSpec.Stored gs s s') ∧
    (∀ xs bs, Vec ExportSpec.Encodes xs bs → Payload mem s.sec.data bs →
      ∃ s', Runs (fwModuleSectionExport mem) s ⟨⟩ s' ∧
        VecLoaded exportCntPart exportsPart ExportSpec.Stored xs s s') ∧
    ∀ segs bs, Vec DataSpec.Encodes segs bs → Payload mem s.sec.data bs →
      ∃ s', Runs (fwModuleSectionData mem) s ⟨⟩ s' ∧
        VecLoaded dataCntPart datasPart (DataSpec.Stored mem) segs s s' := by
  refine ⟨fun gs bs hbs hpay => ?_, fun xs bs hbs hpay => ?_, fun segs bs hbs hpay => ?_⟩
  · exact vecSection_loads ⟨fun _ _ => rfl, fun _ _ => rfl, fun _ _ _ => rfl⟩
      (fun _ _ _ => readsTo_globalEntry) hbs hpay
  · exact vecSection_loads ⟨fun _ _ => rfl, fun _ _ => rfl, fun _ _ _ => rfl⟩
      (fun _ _ _ => readsTo_exportEntry) hbs hpay
  · exact vecSection_loads ⟨fun _ _ => rfl, fun _ _ => rfl, fun _ _ _ => rfl⟩
      (fun _ _ _ => readsTo_dataEntry) hbs hpay

/-- The state in which the handler of a payload is called, for the first section of a module. -/
def loadStateOf (type : UInt8) (bs : List UInt8) : LoadState :=
  ⟨LoadedModule.new [] ⟨0, 0⟩, ⟨type, ⟨0, bs.length⟩, false⟩⟩

theorem payload_memOf (type : UInt8) (bs : List UInt8) :
    Payload (memOf bs) (loadStateOf type bs).sec.data bs :=
  ⟨holds_memOf bs, (Nat.zero_add _).symm⟩

/-- A global, an export and a data segment, each in a section of its own. The initialiser of the
global is a constant, the offset of the segment the value of another global. -/
theorem oneOfEach_roundTrip :
    (∃ s', Runs (fwModuleSectionGlobal (memOf [1, 0x7f, 1, 0x41, 5, 0x0b]))
        (loadStateOf 6 [1, 0x7f, 1, 0x41, 5, 0x0b]) ⟨⟩ s' ∧
      VecLoaded globalCntPart globalsPart GlobalSpec.Stored [⟨0x7f, 1, .i32Const 5⟩]
        (loadStateOf 6 [1, 0x7f, 1, 0x41, 5, 0x0b]) s') ∧
    (∃ s', Runs (fwModuleSectionExport (memOf [1, 1, 0x61, 0, 2]))
        (loadStateOf 7 [1, 1, 0x61, 0, 2]) ⟨⟩ s' ∧
      VecLoaded exportCntPart exportsPart ExportSpec.Stored [⟨[0x61], 0, 2⟩]
        (loadStateOf 7 [1, 1, 0x61, 0, 2]) s') ∧
    ∃ s', Runs (fwModuleSectionData (memOf [1, 0, 0x23, 0, 0x0b, 2, 7, 8]))
        (loadStateOf 11 [1, 0, 0x23, 0, 0x0b, 2, 7, 8]) ⟨⟩ s' ∧
      VecLoaded dataCntPart datasPart (DataSpec.Stored (memOf [1, 0, 0x23, 0, 0x0b, 2, 7, 8]))
        [⟨0, .globalGet 0, [7, 8]⟩] (loadStateOf 11 [1, 0, 0x23, 0, 0x0b, 2, 7, 8]) s' := by
  have himm : (ConstExpr.i32Const 5).EncodesImm [5] :=
    (by decide : SignedSpells 32 (5 : Int32).toInt [5])
  have himm' : (ConstExpr.globalGet 0).EncodesImm [0] :=
    (by decide : Spells 32 (0 : UInt32).toNat [0])
  have hglobal : GlobalSpec.Encodes ⟨0x7f, 1, .i32Const 5⟩ [0x7f, 1, 0x41, 5, 0x0b] :=
    ⟨by decide, by decide, [0x41, 5, 0x0b], ⟨[5], himm, rfl⟩, rfl⟩
  have hexport : ExportSpec.Encodes ⟨[0x61], 0, 2⟩ [1, 0x61, 0, 2] :=
    ⟨[1], [2], by decide, by decide, rfl⟩
  have hdata : DataSpec.Encodes ⟨0, .globalGet 0, [7, 8]⟩ [0, 0x23, 0, 0x0b, 2, 7, 8] :=
    ⟨[0], [0x23, 0, 0x0b], [2], by decide, ⟨[0], himm', rfl⟩, by decide, rfl⟩
  exact ⟨(sections_roundTrip _ _).1 _ _ ⟨[1], _, by decide, .cons hglobal .nil, rfl⟩
      (payload_memOf ..),
    (sections_roundTrip _ _).2.1 _ _ ⟨[1], _, by decide, .cons hexport .nil, rfl⟩
      (payload_memOf ..),
    (sections_roundTrip _ _).2.2 _ _ ⟨[1], _, by decide, .cons hdata .nil, rfl⟩
      (payload_memOf ..)⟩

end FastWasm
