import FastWasm.Vectors

/-!
# The type section

The handler stores the numbers of parameters and results as `uint8_t`. The section comes back from
its encoding exactly when they fit (`typeSection_roundTrip_iff`).

The bytes of the types are copied by the numbers that were read, not by those that are stored, so
the section is always used up and every handler behind it is in step. It is the entry that is wrong:
a type of 256 parameters has none and the bytes of all of them.
-/

namespace FastWasm

open Logged (Fallible)
open Logged.Fallible
open Leb128

/-! ## Function types

Two vectors of bytes behind a prefix. The loader keeps both in one array. -/

/-- A function type before it is encoded, with any number of parameters and results. -/
structure TypeSpec where
  /-- the types of the parameters -/
  params : List UInt8
  /-- the types of the results -/
  results : List UInt8

namespace TypeSpec

/-- The encoding of a function type: two vectors of bytes. -/
def Encodes (t : TypeSpec) (bs : List UInt8) : Prop :=
  ∃ ps rs, Spells 32 t.params.length ps ∧ Spells 32 t.results.length rs ∧
    bs = [0x60] ++ ((ps ++ t.params) ++ (rs ++ t.results))

/-- The entry is that of the type: its numbers are those of the parameters and results, and its
values are the parameters and behind them the results. -/
structure Stored (t : TypeSpec) (entry : FwModuleType) : Prop where
  /-- the number of parameters -/
  paramCnt : entry.paramCnt.toNat = t.params.length
  /-- the number of results -/
  resCnt : entry.resCnt.toNat = t.results.length
  /-- the types -/
  val : entry.val = t.params ++ t.results

/-- The entry that is read: eight bits are left of each number. -/
def entry (t : TypeSpec) : FwModuleType :=
  ⟨UInt8.ofNat t.params.length, UInt8.ofNat t.results.length, t.params ++ t.results⟩

/-- There are fewer than 256 parameters and results each. -/
def Narrow (t : TypeSpec) : Prop := t.params.length < 256 ∧ t.results.length < 256

theorem stored_entry {t : TypeSpec} : t.Stored t.entry ↔ t.Narrow := by
  have hmod (n : ℕ) : (UInt8.ofNat n).toNat = n ↔ n < 256 := by
    rw [UInt8.toNat_ofNat']
    exact Nat.mod_eq_iff_lt (by decide)
  refine ⟨?_, ?_⟩
  · exact fun h => ⟨(hmod _).mp h.paramCnt, (hmod _).mp h.resCnt⟩
  · exact fun h => ⟨(hmod _).mpr h.1, (hmod _).mpr h.2, rfl⟩

end TypeSpec

variable {mem : Mem} {s : LoadState} {ts : List TypeSpec} {bs : List UInt8}

/-- The bytes of a vector are read one by one, whatever they are. -/
theorem readsAs_typeVals {bs : List UInt8} {n : ℕ} (hn : n = bs.length) :
    ReadsAs mem (fwTypeVals mem n) bs bs := by
  subst hn
  intro str hm hlast
  rw [fwTypeVals]
  simp only [runs_bind, runs_get, runs_pass, runs_pure]
  exact ⟨_, _, ⟨rfl, rfl⟩, ⟨⟩, _, ⟨hlast, rfl⟩, (bytesAt_of_holds hm).symm, rfl⟩

theorem readsAs_typeEntry {t : TypeSpec} (h : t.Encodes bs) :
    ReadsAs mem (fwTypeEntry mem) bs t.entry := by
  obtain ⟨ps, rs, hps, hrs, rfl⟩ := h
  have hpre : ReadsAs mem (check ((0x60 : UInt8) = 0x60)) [] ⟨⟩ :=
    fun str _ _ => runs_check.mpr ⟨rfl, rfl⟩
  have hparams : ReadsAs mem (fwTypeVals mem _) _ _ := readsAs_typeVals (Nat.mod_eq_of_lt hps.1)
  have hresults : ReadsAs mem (fwTypeVals mem _) _ _ := readsAs_typeVals (Nat.mod_eq_of_lt hrs.1)
  have hread : ReadsAs mem (fwTypeEntry mem)
      ([0x60] ++ ([] ++ (ps ++ (t.params ++ (rs ++ t.results)))))
      ⟨(UInt32.ofNat t.params.length).toUInt8, (UInt32.ofNat t.results.length).toUInt8,
        t.params ++ t.results⟩ :=
    (readsAs_get8 0x60).bind (hpre.bind ((ReadsAs.getu32 hps).bind (hparams.bind
      ((ReadsAs.getu32 hrs).bind (hresults.bind_pure fun tres => FwModuleType.mk _ _ _)))))
  rw [UInt32.toUInt8_ofNat', UInt32.toUInt8_ofNat'] at hread
  rwa [List.append_assoc ps]

/-! ## The section

A vector of types, from any of its encodings. -/

/-- The section is read, with the entries as they are. -/
theorem typeSection_loads (hbs : Vec TypeSpec.Encodes ts bs) (hpay : Payload mem s.sec.data bs) :
    ∃ s', Runs (fwModuleSectionType mem) s ⟨⟩ s' ∧ s'.module.typeCnt.toNat = ts.length ∧
      (s'.module.type.getD []).take ts.length = ts.map TypeSpec.entry := by
  obtain ⟨d, es, hn, hlen, hes, hd⟩ := hpay.count hbs
  have hend := hd.last.symm
  by_cases hz : UInt32.ofNat ts.length = 0
  · obtain rfl := eq_nil_of_count hlen hz
    obtain rfl : es = [] := by cases hes; rfl
    exact ⟨_, runs_sectionType.mpr ⟨_, d, hn, .inr ⟨not_not.mpr hz, hend, rfl⟩⟩, rfl, rfl⟩
  · have hreads := reads_map_of_concat TypeSpec.entry (fun _ _ _ => readsAs_typeEntry) hes d
      hd.holds hd.last.ge
    refine ⟨_, runs_sectionType.mpr ⟨_, d, hn, .inl ⟨hz, _, ?_, _, hreads, hend, rfl⟩⟩, hlen, ?_⟩
    · rw [hlen, List.length_map]
    · exact List.take_of_length_le (List.length_map _).le

/-- The section comes back from its encoding: the handler returns `FW_OK` and the entries are those
of the types. -/
def TypeRoundTrip (mem : Mem) (s : LoadState) (ts : List TypeSpec) : Prop :=
  ∃ s', Runs (fwModuleSectionType mem) s ⟨⟩ s' ∧ s'.module.typeCnt.toNat = ts.length ∧
    List.Forall₂ TypeSpec.Stored ts ((s'.module.type.getD []).take ts.length)

theorem roundTrip_iff_narrow (hbs : Vec TypeSpec.Encodes ts bs)
    (hpay : Payload mem s.sec.data bs) :
    TypeRoundTrip mem s ts ↔ ∀ t ∈ ts, t.Narrow := by
  obtain ⟨s', hrun, hcnt, htypes⟩ := typeSection_loads hbs hpay
  have hstored : List.Forall₂ TypeSpec.Stored ts (ts.map TypeSpec.entry) ↔ ∀ t ∈ ts, t.Narrow := by
    rw [List.forall₂_map_right_iff, List.forall₂_same]
    exact forall₂_congr fun _ _ => TypeSpec.stored_entry
  rw [← hstored, ← htypes]
  refine ⟨?_, ?_⟩
  · rintro ⟨s'', hrun', -, hall⟩
    obtain ⟨-, rfl⟩ := hrun.unique hrun'
    exact hall
  · exact fun h => ⟨s', hrun, hcnt, h⟩

/-- The section comes back from its encoding if and only if no type has more than 255 parameters or
results. The payload is an encoding of the types (`hbs`, `hpay`), with any numbers padded, and the
module may have types from before. -/
theorem typeSection_roundTrip_iff (hbs : Vec TypeSpec.Encodes ts bs)
    (hpay : Payload mem s.sec.data bs) :
    TypeRoundTrip mem s ts ↔ ∀ t ∈ ts, t.params.length < 256 ∧ t.results.length < 256 :=
  roundTrip_iff_narrow hbs hpay

/-- Two parameters and a result, nothing at all, and a parameter and two results. -/
def threeTypes : List TypeSpec := [⟨[0x7f, 0x7f], [0x7f]⟩, ⟨[], []⟩, ⟨[0x7e], [0x7d, 0x7c]⟩]

/-- The section that holds them. -/
def threeTypeBytes : List UInt8 :=
  [3, 0x60, 2, 0x7f, 0x7f, 1, 0x7f, 0x60, 0, 0, 0x60, 1, 0x7e, 2, 0x7d, 0x7c]

/-- They come back in their order, as none has more than 255 of anything. -/
theorem threeTypes_roundTrip :
    TypeRoundTrip (memOf threeTypeBytes) (loadStateOf 1 threeTypeBytes) threeTypes := by
  have hencs : List.Forall₂ TypeSpec.Encodes threeTypes
      [[0x60, 2, 0x7f, 0x7f, 1, 0x7f], [0x60, 0, 0], [0x60, 1, 0x7e, 2, 0x7d, 0x7c]] :=
    .cons ⟨[2], [1], by decide, by decide, rfl⟩ <| .cons ⟨[0], [0], by decide, by decide, rfl⟩ <|
      .cons ⟨[1], [2], by decide, by decide, rfl⟩ .nil
  have hbs : Vec TypeSpec.Encodes threeTypes threeTypeBytes :=
    ⟨[3], _, by decide, concat_flatten hencs, rfl⟩
  exact (typeSection_roundTrip_iff hbs (payload_memOf ..)).mpr (by decide)

/-- A type of 256 parameters. -/
def wideType : TypeSpec := ⟨List.replicate 256 0x7f, []⟩

/-- The section that holds it, with a count of two bytes. -/
def wideBytes : List UInt8 :=
  [1] ++ ([0x60] ++ (([0x80, 0x02] ++ wideType.params) ++ ([0] ++ wideType.results)))

/-- It is stored with no parameter, since 256 is 0 in eight bits. -/
theorem wideType_not_roundTrip :
    Vec TypeSpec.Encodes [wideType] wideBytes ∧
      ¬ TypeRoundTrip (memOf wideBytes) (loadStateOf 1 wideBytes) [wideType] := by
  have hbs : Vec TypeSpec.Encodes [wideType] wideBytes := by
    refine ⟨[1], _, by decide, .cons ⟨[0x80, 0x02], [0], ?_, by decide, rfl⟩ .nil, ?_⟩
    · rw [wideType, List.length_replicate]
      decide
    · rw [List.append_nil, wideBytes]
  refine ⟨hbs, fun h => ?_⟩
  obtain ⟨hlt, -⟩ := (roundTrip_iff_narrow hbs (payload_memOf ..)).mp h _
    (List.mem_singleton_self _)
  rw [wideType, List.length_replicate] at hlt
  exact absurd hlt (by decide)

end FastWasm
