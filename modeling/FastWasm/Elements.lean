import FastWasm.Vectors

/-!
# The element section

The handler reads one function index of a segment and stores it as many times as the segment has
functions, so that the cursor is behind the first index and not behind the last. Segments come back
from all their encodings exactly when none has more than one function (`elemSection_roundTrip_iff`).

That a segment of two functions does not come back takes an argument, since the indices that are
left over are read as the next segment, and the section may happen to end all the same. An encoding
with long numbers settles it: an index in five bytes begins with a byte that cannot be read as the
table of a segment with an offset behind it. So the condition is necessary because the segments are
to come back from every encoding of theirs.
-/

namespace FastWasm

open Logged (Fallible)
open Logged.Fallible
open Leb128

/-! ## Element segments

A segment has a table, an offset that is a constant expression, and a vector of function indices. -/

/-- An element segment before it is encoded, with any number of functions. -/
structure ElemSpec where
  /-- the table -/
  tableIdx : UInt32
  /-- where the functions go -/
  offset : ConstExpr
  /-- the functions -/
  funcs : List UInt32

/-- The encoding of an index, as a number of 32 bits. -/
def EncodesIdx (idx : UInt32) (bs : List UInt8) : Prop := Spells 32 idx.toNat bs

namespace ElemSpec

/-- The encoding of a segment: the table, the offset, the vector of the functions. -/
def Encodes (seg : ElemSpec) (bs : List UInt8) : Prop :=
  ∃ ts e fs, EncodesIdx seg.tableIdx ts ∧ seg.offset.Encodes e ∧ Vec EncodesIdx seg.funcs fs ∧
    bs = ts ++ (e ++ fs)

/-- The entry is that of the segment; it has no array when there is no function. -/
structure Stored (seg : ElemSpec) (entry : FwModuleElem) : Prop where
  /-- the table -/
  tableIdx : entry.tableIdx = seg.tableIdx
  /-- the number of functions -/
  funcCnt : entry.funcCnt.toNat = seg.funcs.length
  /-- the functions -/
  funcs : entry.funcs.getD [] = seg.funcs

end ElemSpec

/-- The segments come back from all their encodings. -/
def ElemRoundTrip (segs : List ElemSpec) : Prop :=
  ∀ mem (s : LoadState) bs, Vec ElemSpec.Encodes segs bs → Payload mem s.sec.data bs →
    ∃ s', Runs (fwModuleSectionElem mem) s ⟨⟩ s' ∧
      VecLoaded elemCntPart elemsPart ElemSpec.Stored segs s s'

variable {mem : Mem} {seg : ElemSpec} {segs : List ElemSpec} {bs : List UInt8}

/-! ## One segment

With one function the handler reads one index and needs one; with none it reads none. -/

section

variable {tableIdx idx : UInt32} {offset : ConstExpr} {n : ℕ} {ts e cs fs : List UInt8}

/-- A segment of no function: the number is read, and no index behind it. -/
theorem readsAs_elemEntry_none (hts : EncodesIdx tableIdx ts) (he : offset.Encodes e)
    (hcs : Spells 32 0 cs) :
    ReadsAs mem (fwElemEntry mem) (ts ++ (e ++ (cs ++ []))) ⟨tableIdx, 0, none⟩ :=
  (ReadsAs.getu32_toNat hts).bind ((readsAs_parseExpr he).bind
    ((ReadsAs.getu32 hcs).bind (ReadsAs.pure _)))

/-- Of a segment of functions the handler reads the first one. -/
theorem readsAs_elemEntry_some (hts : EncodesIdx tableIdx ts) (he : offset.Encodes e)
    (hcs : Spells 32 n cs) (hn : 0 < n) (hfs : EncodesIdx idx fs) :
    ReadsAs mem (fwElemEntry mem) (ts ++ (e ++ (cs ++ fs)))
      ⟨tableIdx, UInt32.ofNat n, some (List.replicate (UInt32.ofNat n).toNat idx)⟩ := by
  have hlen : (UInt32.ofNat n).toNat = n := Nat.mod_eq_of_lt hcs.1
  have hne : UInt32.ofNat n ≠ 0 := fun h => hn.ne (hlen ▸ congrArg UInt32.toNat h).symm
  refine (ReadsAs.getu32_toNat hts).bind ((readsAs_parseExpr he).bind
    ((ReadsAs.getu32 hcs).bind ?_))
  rw [if_pos hne]
  exact (ReadsAs.getu32_toNat hfs).bind_pure fun funcIdx => FwModuleElem.mk _ _ _

end

/-- A segment of at most one function is read as it was encoded. -/
theorem readsTo_elemEntry (h : seg.Encodes bs) (hle : seg.funcs.length ≤ 1) :
    ReadsTo mem (fwElemEntry mem) bs seg.Stored := by
  obtain ⟨tableIdx, offset, funcs⟩ := seg
  obtain ⟨ts, e, _, hts, he, ⟨cs, fs, hcs, hfs, rfl⟩, rfl⟩ := h
  cases hfs with
  | nil =>
    exact fun str hm hlast => ⟨_, readsAs_elemEntry_none hts he hcs str hm hlast, rfl, rfl, rfl⟩
  | @cons idx rest fs fs' head tail =>
    obtain rfl : rest = [] :=
      List.length_eq_zero_iff.mp (Nat.le_zero.mp (Nat.le_of_succ_le_succ hle))
    cases tail
    rw [List.append_nil]
    exact fun str hm hlast => ⟨_, readsAs_elemEntry_some hts he hcs Nat.one_pos head str hm hlast,
      rfl, rfl, rfl⟩

/-- No opcode of a constant is a byte of at least `0x80`. -/
theorem not_runs_exprImm {b : UInt8} (hb : 0x80 ≤ b) {d d' : FwStr} {u : PUnit} :
    ¬ Runs (fwExprImm mem b) d u d' := by
  have hne (c : UInt8) (hc : c < 0x80) : b ≠ c := fun h => UInt8.not_lt.mpr hb (h ▸ hc)
  rw [fwExprImm, if_neg (hne _ (by decide)), if_neg (hne _ (by decide)),
    if_neg (hne _ (by decide)), if_neg (hne _ (by decide)), if_neg (hne _ (by decide)), runs_fail]
  exact not_false

/-- No segment is read where a long number follows a number. -/
theorem not_runs_elemEntry {n : ℕ} {bs bs' : List UInt8} {str str' : FwStr} {entry : FwModuleElem}
    (hbs : Spells 32 n bs) (hbs' : Long bs') (hm : Holds mem str.pos (bs ++ bs'))
    (hlast : str.pos + (bs ++ bs').length ≤ str.last) :
    ¬ Runs (fwElemEntry mem) str entry str' := by
  intro hrun
  obtain ⟨b, rest, rfl, hb⟩ := hbs'
  obtain ⟨hm₁, hm₂⟩ := (holds_append ..).mp hm
  rw [List.length_append] at hlast
  have hn := ReadsAs.getu32 hbs str hm₁ (by omega)
  rw [fwElemEntry] at hrun
  simp only [runs_bind] at hrun
  obtain ⟨n', d, hn', _, d', hexpr, -⟩ := hrun
  obtain ⟨-, rfl⟩ := hn.unique hn'
  obtain ⟨literal, d₁, _, hlit, himm, -⟩ := runs_parseExpr.mp hexpr
  obtain ⟨-, rfl, -⟩ := runs_get8.mp hlit
  rw [hm₂.1] at himm
  exact not_runs_exprImm hb himm

/-! ## The section

When all indices take five bytes, a segment that is read out of step shows: what is taken for the
table of the next segment is a byte with the high bit set, in the middle of an index. -/

/-- The encoding of an index by a long number: five bytes, whatever the index is. -/
def EncodesIdxLong (idx : UInt32) (bs : List UInt8) : Prop := EncodesIdx idx bs ∧ Long bs

/-- The encoding of a segment with all indices by long numbers. -/
def ElemSpec.EncodesLong (seg : ElemSpec) (bs : List UInt8) : Prop :=
  ∃ ts e fs, EncodesIdxLong seg.tableIdx ts ∧ seg.offset.Encodes e ∧
    Vec EncodesIdxLong seg.funcs fs ∧ bs = ts ++ (e ++ fs)

theorem exists_encodesIdxLong (idx : UInt32) : ∃ bs, EncodesIdxLong idx bs :=
  exists_long idx.toNat_lt

theorem ElemSpec.EncodesLong.encodes (h : seg.EncodesLong bs) : seg.Encodes bs := by
  obtain ⟨ts, e, _, hts, he, ⟨cs, fs, hcs, hfs, rfl⟩, rfl⟩ := h
  exact ⟨ts, e, _, hts.1, he, ⟨cs, fs, hcs, hfs.mono fun _ _ h => h.1, rfl⟩, rfl⟩

theorem ElemSpec.EncodesLong.long (h : seg.EncodesLong bs) : Long bs := by
  obtain ⟨ts, e, fs, hts, -, -, rfl⟩ := h
  exact hts.2.append _

/-- What has an encoding has one with long numbers, as every index can be padded. -/
theorem ElemSpec.Encodes.exists_encodesLong (h : seg.Encodes bs) :
    ∃ bs', seg.EncodesLong bs' := by
  obtain ⟨ts, e, _, -, he, ⟨cs, fs, hcs, hfs, rfl⟩, rfl⟩ := h
  obtain ⟨ts', hts'⟩ := exists_encodesIdxLong seg.tableIdx
  obtain ⟨fs', hfs'⟩ := hfs.exists_concat fun idx _ _ => exists_encodesIdxLong idx
  exact ⟨_, ts', e, _, hts', he, ⟨cs, fs', hcs, hfs', rfl⟩, rfl⟩

/-- What stands behind long numbers is long with them. -/
theorem long_append {idxs : List UInt32} {fs : List UInt8} (hfs : Concat EncodesIdxLong idxs fs)
    (hbs : Long bs) : Long (fs ++ bs) := by
  cases hfs with
  | nil => exact hbs
  | cons head tail => exact (head.2.append _).append _

/-- Where segments with long numbers are read up to the end of the section, the first has no second
function: what follows its first one would be taken for the next segment. -/
theorem length_funcs_le {entry : FwModuleElem} {es : List FwModuleElem} {str d d' : FwStr}
    {bs' : List UInt8} (hbs : seg.EncodesLong bs) (hbs' : Concat ElemSpec.EncodesLong segs bs')
    (hm : Holds mem str.pos (bs ++ bs')) (hlast : str.last = str.pos + (bs ++ bs').length)
    (hentry : Runs (fwElemEntry mem) str entry d) (hlen : es.length = segs.length)
    (hreads : Reads (fwElemEntry mem) d es d') (hend : d'.pos = d'.last) :
    seg.funcs.length ≤ 1 := by
  by_contra hgt
  obtain ⟨tableIdx, offset, funcs⟩ := seg
  obtain ⟨ts, e, _, hts, he, ⟨cs, fs, hcs, hfs, rfl⟩, rfl⟩ := hbs
  cases hfs with
  | nil => exact hgt (Nat.zero_le 1)
  | @cons idx idxs fs fs' hidx hfs =>
    cases hfs with
    | nil => exact hgt le_rfl
    | @cons idx' idxs fs₂ fs' hidx' hfs =>
      have hbytes : ts ++ (e ++ (cs ++ (fs ++ (fs₂ ++ fs')))) ++ bs' =
          (ts ++ (e ++ (cs ++ fs))) ++ (fs₂ ++ (fs' ++ bs')) := by
        simp only [List.append_assoc]
      have hpos := hidx'.1.2.1.1.length_pos
      rw [hbytes] at hm hlast
      obtain ⟨hm₁, hm₂⟩ := (holds_append ..).mp hm
      rw [List.length_append] at hlast
      have hread := readsAs_elemEntry_some hts.1 he hcs (Nat.succ_pos _) hidx.1 str hm₁ (by omega)
      obtain ⟨-, rfl⟩ := hread.unique hentry
      cases hbs' with
      | nil =>
        obtain rfl := List.length_eq_zero_iff.mp hlen
        obtain rfl := reads_nil.mp hreads
        simp only [List.length_append] at hend hlast
        omega
      | cons head tail =>
        obtain ⟨entry', es, rfl⟩ := List.exists_cons_of_length_pos (l := es) (by simp [hlen])
        obtain ⟨d₁, hentry', -⟩ := reads_cons.mp hreads
        exact not_runs_elemEntry hidx'.1 (long_append hfs (head.long.append _)) hm₂
          (by simp only; omega) hentry'

/-- Where segments with long numbers are read up to the end of the section, none has a second
function. -/
theorem forall_length_funcs_le {es : List FwModuleElem} {str d : FwStr}
    (hc : Concat ElemSpec.EncodesLong segs bs) (hm : Holds mem str.pos bs)
    (hlast : str.last = str.pos + bs.length) (hlen : es.length = segs.length)
    (hreads : Reads (fwElemEntry mem) str es d) (hend : d.pos = d.last) :
    ∀ seg ∈ segs, seg.funcs.length ≤ 1 := by
  induction hc generalizing str es with
  | nil => exact List.forall_mem_nil _
  | @cons seg segs bs bs' head tail ih =>
    obtain ⟨entry, es, rfl⟩ := List.exists_cons_of_length_pos (l := es) (by simp [hlen])
    have hlen : es.length = segs.length := Nat.succ.inj hlen
    obtain ⟨d₁, hentry, hreads⟩ := reads_cons.mp hreads
    have hle := length_funcs_le head tail hm hlast hentry hlen hreads hend
    obtain ⟨hm₁, hm₂⟩ := (holds_append ..).mp hm
    rw [List.length_append] at hlast
    obtain ⟨v, hv, -⟩ := readsTo_elemEntry head.encodes hle str hm₁ (by omega)
    obtain ⟨-, rfl⟩ := hv.unique hentry
    exact List.forall_mem_cons.mpr ⟨hle, ih hm₂ (by simp only; omega) hlen hreads⟩

/-- Segments of at most one function each come back. -/
theorem elemSection_loads {s : LoadState} (hbs : Vec ElemSpec.Encodes segs bs)
    (hpay : Payload mem s.sec.data bs) (hle : ∀ seg ∈ segs, seg.funcs.length ≤ 1) :
    ∃ s', Runs (fwModuleSectionElem mem) s ⟨⟩ s' ∧
      VecLoaded elemCntPart elemsPart ElemSpec.Stored segs s s' :=
  vecSection_loads ⟨fun _ _ => rfl, fun _ _ => rfl, fun _ _ _ => rfl⟩
    (fun seg hseg _ h => readsTo_elemEntry h (hle seg hseg)) hbs hpay

/-- What a handler that returned `FW_OK` says of segments that are encoded with long numbers. -/
theorem forall_length_funcs_le_of_runs {s s' : LoadState} (hbs : Vec ElemSpec.EncodesLong segs bs)
    (hpay : Payload mem s.sec.data bs) (hrun : Runs (fwModuleSectionElem mem) s ⟨⟩ s') :
    ∀ seg ∈ segs, seg.funcs.length ≤ 1 := by
  obtain ⟨d, bs', hn, hlen, hes, hd⟩ := hpay.count hbs
  obtain ⟨n, d', hn', hcase⟩ := runs_vecSection.mp hrun
  obtain ⟨rfl, rfl⟩ := hn.unique hn'
  rcases hcase with ⟨-, es, hentries, d', hreads, hend, -⟩ | ⟨hz, -, -⟩
  · exact forall_length_funcs_le hes hd.holds hd.last (hentries.trans hlen) hreads hend
  · obtain rfl := eq_nil_of_count hlen (not_not.mp hz)
    exact List.forall_mem_nil _

/-- Segments that have an encoding (`h`) come back from all their encodings if and only if none has
more than one function. The others are those whose values do not fit in a number of their width. -/
theorem elemSection_roundTrip_iff (h : ∃ bs, Vec ElemSpec.Encodes segs bs) :
    ElemRoundTrip segs ↔ ∀ seg ∈ segs, seg.funcs.length ≤ 1 := by
  refine ⟨?_, ?_⟩
  · intro hall
    obtain ⟨_, cs, es, hcs, hes, rfl⟩ := h
    obtain ⟨es', hes'⟩ := hes.exists_concat fun _ _ h => ElemSpec.Encodes.exists_encodesLong h
    have hlong : Vec ElemSpec.EncodesLong segs (cs ++ es') := ⟨cs, es', hcs, hes', rfl⟩
    obtain ⟨s', hrun, -⟩ := hall (memOf (cs ++ es')) (loadStateOf 9 (cs ++ es')) (cs ++ es')
      ⟨cs, es', hcs, hes'.mono fun _ _ => ElemSpec.EncodesLong.encodes, rfl⟩ (payload_memOf ..)
    exact forall_length_funcs_le_of_runs hlong (payload_memOf 9 _) hrun
  · exact fun hle mem s bs hbs hpay => elemSection_loads hbs hpay hle

/-- A segment of the functions `funcs`, at the start of the first table. -/
def elemOf (funcs : List UInt32) : ElemSpec := ⟨0, .i32Const 0, funcs⟩

theorem elemOf_encodes {funcs : List UInt32} {fs : List UInt8} (hfs : Vec EncodesIdx funcs fs) :
    (elemOf funcs).Encodes ([0] ++ ([0x41, 0, 0x0b] ++ fs)) :=
  ⟨[0], [0x41, 0, 0x0b], fs, (by decide : Spells 32 (0 : UInt32).toNat [0]),
    ⟨[0], (by decide : SignedSpells 32 (0 : Int32).toInt [0]), rfl⟩, hfs, rfl⟩

/-- A segment of one function comes back, from every encoding. -/
theorem oneFunc_roundTrip : ElemRoundTrip [elemOf [7]] := by
  have hfs : Vec EncodesIdx [7] [1, 7] :=
    ⟨[1], _, by decide, .cons (by decide : Spells 32 (7 : UInt32).toNat [7]) .nil, rfl⟩
  exact (elemSection_roundTrip_iff ⟨_, [1], _, by decide, .cons (elemOf_encodes hfs) .nil, rfl⟩).mpr
    (List.forall_mem_singleton.mpr le_rfl)

/-- A segment of two functions does not: the handler is behind the first of them and takes the
second for another segment. -/
theorem twoFuncs_not_roundTrip :
    Vec ElemSpec.Encodes [elemOf [7, 8]] [1, 0, 0x41, 0, 0x0b, 2, 7, 8] ∧
      ¬ ∃ s', Runs (fwModuleSectionElem (memOf [1, 0, 0x41, 0, 0x0b, 2, 7, 8]))
        (loadStateOf 9 [1, 0, 0x41, 0, 0x0b, 2, 7, 8]) ⟨⟩ s' := by
  have hfs : Vec EncodesIdx [7, 8] [2, 7, 8] :=
    ⟨[2], _, by decide, .cons (by decide : Spells 32 (7 : UInt32).toNat [7])
      (.cons (by decide : Spells 32 (8 : UInt32).toNat [8]) .nil), rfl⟩
  refine ⟨⟨[1], _, by decide, .cons (elemOf_encodes hfs) .nil, rfl⟩, ?_⟩
  rintro ⟨s', hrun⟩
  obtain ⟨s'', hfail⟩ : ∃ s'', (fwModuleSectionElem (memOf [1, 0, 0x41, 0, 0x0b, 2, 7, 8])
    (loadStateOf 9 [1, 0, 0x41, 0, 0x0b, 2, 7, 8])).res = .ok (none, s'') := ⟨_, rfl⟩
  exact absurd (hfail.symm.trans hrun) (by simp)

end FastWasm
