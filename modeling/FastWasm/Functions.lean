import FastWasm.Sections

/-!
# The function and code sections

The handler of the function section walks two sections side by side. What it makes of encodings is
the functions that were encoded (`funcSection_roundTrip`). Of arbitrary bytes it never compares
the end of an entry with the locals it has just read, nor with the end of the code section: the
bodies lie in the code section exactly when the entries are framed (`bodies_inside_iff`).

The two cursors are one state of the parser, and an entry is read from both. For encoded functions
the induction is on the list of functions, with both payloads taken apart in step. For arbitrary
bytes what is known of an entry is where its size ends and where its body begins
(`codeEntry_bounds`): the next entry is found by the size, whatever the locals did. So entries may
overlap, and a body may begin behind its end; the last cursor tells whether the section was used up.
-/

namespace FastWasm

open Logged (Fallible)
open Logged.Fallible

variable {mem : Mem}

/-! ## Encoded functions

A function has an entry in each of two sections: an index of a type, and its code. -/

/-- A function before it is encoded: the index of its type, its groups of locals, and the bytes of
its body. -/
structure FuncCode where
  /-- the index of its type -/
  typeidx : UInt32
  /-- the groups of local declarations -/
  groups : List (UInt32 × UInt8)
  /-- the bytes of its instructions -/
  body : List UInt8

/-- The encoding of a group: the count and the value type, a byte below `0x80`. -/
def EncodesGroup (g : UInt32 × UInt8) (bs : List UInt8) : Prop :=
  ∃ cs, Leb128.Spells 32 g.1.toNat cs ∧ g.2 < 0x80 ∧ bs = cs ++ [g.2]

/-- The entry of a function in the function section: the index of its type. -/
def FuncCode.EncodesType (f : FuncCode) (bs : List UInt8) : Prop :=
  Leb128.Spells 32 f.typeidx.toNat bs

/-- The entry of a function in the code section: its size, the local declarations, the body. -/
def FuncCode.EncodesCode (f : FuncCode) (bs : List UInt8) : Prop :=
  ∃ size locals, Leb128.Vec EncodesGroup f.groups locals ∧
    Leb128.Spells 32 (locals.length + f.body.length) size ∧ bs = size ++ (locals ++ f.body)

/-- The entry of the code section is that of the function. -/
def FuncCode.Entry (mem : Mem) (f : FuncCode) (e : List UInt8 × UInt32 × FwStr) : Prop :=
  e.1 = expandLocals f.groups ∧ e.2.1.toNat = sumLocals f.groups ∧
    Holds mem e.2.2.pos f.body ∧ e.2.2.last = e.2.2.pos + f.body.length

/-- The loaded function is the one that was encoded: its type is that at its index, its locals are
those of the groups, and its body is a slice with the same bytes. -/
def FuncCode.Loaded (mem : Mem) (types : List FwModuleType) (f : FuncCode) (func : LoadedFunc) :
    Prop :=
  (∃ t, types[f.typeidx.toNat]? = some t ∧ func.functype = some t) ∧
    func.localCnt.toNat = sumLocals f.groups ∧ func.localType = expandLocals f.groups ∧
    Holds mem func.body.pos f.body ∧ func.body.last = func.body.pos + f.body.length

theorem readsAs_localGroup {g : UInt32 × UInt8} {bs : List UInt8} (h : EncodesGroup g bs) :
    ReadsAs mem (fwLocalGroup mem) bs g := by
  obtain ⟨cs, hcs, hlt, rfl⟩ := h
  exact (ReadsAs.getu32_toNat hcs).bind ((ReadsAs.getu8 hlt).bind_pure _)

/-- An entry of the code section is read, whatever its position. The size that it declares covers
the groups of locals and the body, so the cursor ends behind the body, and the body starts behind
the groups. -/
theorem readsTo_codeEntry {f : FuncCode} {bs : List UInt8} (hsum : sumLocals f.groups < 2 ^ 32)
    (h : f.EncodesCode bs) : ReadsTo mem (fwCodeEntry mem) bs (f.Entry mem) := by
  obtain ⟨size, locals, ⟨cs, gs, hcs, hgs, rfl⟩, hsize, rfl⟩ := h
  intro c hm hlast
  obtain ⟨hm₁, hm⟩ := (holds_append ..).mp hm
  obtain ⟨hm₂, hm₄⟩ := (holds_append ..).mp hm
  obtain ⟨hm₂, hm₃⟩ := (holds_append ..).mp hm₂
  simp only [List.length_append] at hlast hm₄ hsize
  have h₁ := ReadsAs.getu32 hsize c hm₁ (by omega)
  have h₂ := ReadsAs.getu32 hcs ⟨c.pos + size.length, c.last⟩ hm₂ (by simp only; omega)
  have h₃ := reads_map_of_concat id (fun _ _ _ => readsAs_localGroup) hgs
    ⟨c.pos + size.length + cs.length, c.last⟩ hm₃ (by simp only; omega)
  rw [List.map_id] at h₃
  have hlen : (UInt32.ofNat f.groups.length).toNat = f.groups.length :=
    Nat.mod_eq_of_lt hcs.1
  have hsize' : (UInt32.ofNat (cs.length + gs.length + f.body.length)).toNat =
      cs.length + gs.length + f.body.length := Nat.mod_eq_of_lt hsize.1
  refine ⟨_, runs_codeEntry.mpr ⟨_, _, h₁, _, _, h₂, f.groups, hlen.symm, _, h₃, hsum, rfl, ?_⟩,
    rfl, Nat.mod_eq_of_lt hsum, ?_, ?_⟩
  · rw [hsize']
    simp only [List.length_append, FwStr.mk.injEq, and_true]
    omega
  · simpa only [Nat.add_assoc] using hm₄
  · rw [hsize']
    simp only
    omega

theorem forall₂_funcsOf {types : List FwModuleType} {fs : List FuncCode}
    {entries : List (List UInt8 × UInt32 × FwStr)} (hidx : ∀ f ∈ fs, f.typeidx.toNat < types.length)
    (h : List.Forall₂ (FuncCode.Entry mem) fs entries) :
    List.Forall₂ (FuncCode.Loaded mem types) fs
      (funcsOf types (fs.map FuncCode.typeidx) entries) := by
  induction h with
  | nil => exact .nil
  | @cons f e fs entries head tail ih =>
    obtain ⟨hf, hidx⟩ := List.forall_mem_cons.mp hidx
    obtain ⟨htype, hcnt, hbody, hlast⟩ := head
    exact .cons ⟨⟨_, List.getElem?_eq_getElem hf, List.getElem?_eq_getElem hf⟩, hcnt, htype, hbody,
      hlast⟩ (ih hidx)

/-- Where an index is below `type_cnt` and the array holds what `type_cnt` says, there is an
array. -/
theorem LoadedModule.exists_type {module : LoadedModule} {typeidx : UInt32}
    (htypes : module.typeCnt.toNat ≤ (module.type.getD []).length)
    (hidx : typeidx < module.typeCnt) : ∃ types, module.type = some types := by
  have hlt := UInt32.lt_iff_toNat_lt.mp hidx
  cases ht : module.type with
  | none =>
    rw [ht] at htypes
    simp only [Option.getD_none, List.length_nil] at htypes
    omega
  | some types => exact ⟨types, rfl⟩

/-- The round trip of the function and code sections. The array of types holds what `type_cnt` says
(`htypes`), the indices of the types are below it (`hidx`), and the locals of a function can be
counted (`hsum`). The payload of the function section lies at the cursor of the section, and that of
the code section at `code_ref`, both up to their ends. For no function the module is left as it is,
so `func_cnt` must be 0 already. -/
theorem funcSection_roundTrip {s : LoadState} {fs : List FuncCode} {func code : List UInt8}
    (htypes : s.module.typeCnt.toNat ≤ (s.module.type.getD []).length)
    (hidx : ∀ f ∈ fs, f.typeidx < s.module.typeCnt) (hsum : ∀ f ∈ fs, sumLocals f.groups < 2 ^ 32)
    (hfunc : Leb128.Vec FuncCode.EncodesType fs func)
    (hcode : Leb128.Vec FuncCode.EncodesCode fs code)
    (hm : Holds mem s.sec.data.pos func) (hlast : s.sec.data.last = s.sec.data.pos + func.length)
    (hmc : Holds mem s.module.codeRef.pos code)
    (hlastc : s.module.codeRef.last = s.module.codeRef.pos + code.length) :
    ∃ s', Runs (fwModuleSectionFunc mem) s ⟨⟩ s' ∧
      s'.module.codeRef.pos = s'.module.codeRef.last ∧
      ((fs = [] → s.module.funcCnt = 0 ∧ s.module.funcs = []) →
        s'.module.funcCnt.toNat = fs.length ∧
          List.Forall₂ (FuncCode.Loaded mem (s.module.type.getD [])) fs s'.module.funcs) := by
  obtain ⟨d, is, hn, hlen, his, hd⟩ := Payload.count ⟨hm, hlast⟩ hfunc
  obtain ⟨c, cs, hc, -, hcs, hc'⟩ := Payload.count ⟨hmc, hlastc⟩ hcode
  have hend := hd.last.symm
  have hendc := hc'.last.symm
  have hi := reads_map_of_concat FuncCode.typeidx (fun _ _ _ => ReadsAs.getu32_toNat) his d
    hd.holds hd.last.ge
  obtain ⟨entries, he, hentries⟩ := reads_of_concat (P := FuncCode.Entry mem)
    (fun f hf _ => readsTo_codeEntry (hsum f hf)) hcs c hc'.holds hc'.last.ge
  by_cases hz : UInt32.ofNat fs.length = 0
  · obtain rfl := eq_nil_of_count hlen hz
    obtain rfl : is = [] := by cases his; rfl
    obtain rfl : cs = [] := by cases hcs; rfl
    refine ⟨_, runs_sectionFunc.mpr ⟨_, d, c, hn, hc, .inr ⟨not_not.mpr hz, hend, rfl⟩⟩, hendc,
      fun h => ?_⟩
    · obtain ⟨hcnt, hfuncs⟩ := h rfl
      simp only [hcnt, hfuncs, List.length_nil]
      exact ⟨rfl, .nil⟩
  · obtain ⟨f, hf⟩ := List.exists_mem_of_ne_nil fs fun hnil => hz (by rw [hnil]; rfl)
    obtain ⟨types, ht⟩ := LoadedModule.exists_type htypes (hidx f hf)
    rw [ht, Option.getD_some] at htypes ⊢
    refine ⟨_, runs_sectionFunc.mpr ⟨_, d, c, hn, hc, .inl ⟨hz, types, ht, _, _, hi, ?_, ?_,
      entries, _, he, ?_, hend, rfl⟩⟩, hendc,
      fun _ => ⟨hlen, forall₂_funcsOf (fun f hf => ?_) hentries⟩⟩
    · rw [List.length_map, hlen]
    · rintro idx hmem
      obtain ⟨f, hf, rfl⟩ := List.mem_map.mp hmem
      exact UInt32.le_of_lt (hidx f hf)
    · rw [hlen, hentries.length_eq]
    · exact lt_of_lt_of_le (UInt32.lt_iff_toNat_lt.mp (hidx f hf)) htypes

/-- A module with two types and nothing else yet, its code section at an address. -/
def twoTypes (codeRef : FwStr) : LoadedModule :=
  { LoadedModule.new [] codeRef with typeCnt := 2, type := some [⟨0, 0, []⟩, ⟨1, 1, [0x7f, 0x7f]⟩] }

/-- A function of the second type with two groups of locals, one without locals, and one of the
first type with one local. -/
def threeFuncs : List FuncCode :=
  [⟨1, [(1, 0x7f), (2, 0x7e)], [0x20, 0, 0x0b]⟩, ⟨1, [], [0x0b]⟩, ⟨0, [(1, 0x7d)], [0x0b]⟩]

/-- The payload of their function section and, behind it, the one of their code section. -/
def threeFuncBytes : List UInt8 :=
  [3, 1, 1, 0, 3, 8, 2, 1, 0x7f, 2, 0x7e, 0x20, 0, 0x0b, 2, 0, 0x0b, 4, 1, 1, 0x7d, 0x0b]

/-- They come back from their encoding, each with its own type, locals and body. The types are not
in the order of the functions, and the groups of locals are none, one and two. -/
theorem threeFuncs_roundTrip :
    ∃ s', Runs (fwModuleSectionFunc (memOf threeFuncBytes))
        ⟨twoTypes ⟨4, 22⟩, ⟨3, ⟨0, 4⟩, false⟩⟩ ⟨⟩ s' ∧
      s'.module.codeRef.pos = s'.module.codeRef.last ∧
      ((threeFuncs = [] → (0 : UInt32) = 0 ∧ ([] : List LoadedFunc) = []) →
        s'.module.funcCnt.toNat = 3 ∧
          List.Forall₂ (FuncCode.Loaded (memOf threeFuncBytes) [⟨0, 0, []⟩, ⟨1, 1, [0x7f, 0x7f]⟩])
            threeFuncs s'.module.funcs) := by
  have hgroup (n : UInt32) (t b : UInt8) (hb : Leb128.Spells 32 n.toNat [b]) (ht : t < 0x80) :
      EncodesGroup (n, t) [b, t] := ⟨[b], hb, ht, rfl⟩
  have htype (f : FuncCode) (b : UInt8) (hb : Leb128.Spells 32 f.typeidx.toNat [b]) :
      f.EncodesType [b] := hb
  have hcode : List.Forall₂ FuncCode.EncodesCode threeFuncs
      [[8, 2, 1, 0x7f, 2, 0x7e, 0x20, 0, 0x0b], [2, 0, 0x0b], [4, 1, 1, 0x7d, 0x0b]] :=
    .cons ⟨[8], [2, 1, 0x7f, 2, 0x7e], ⟨[2], _, by decide,
      .cons (hgroup 1 0x7f 1 (by decide) (by decide)) <|
      .cons (hgroup 2 0x7e 2 (by decide) (by decide)) .nil, rfl⟩, by decide, rfl⟩ <|
    .cons ⟨[2], [0], ⟨[0], _, by decide, .nil, rfl⟩, by decide, rfl⟩ <|
    .cons ⟨[4], [1, 1, 0x7d], ⟨[1], _, by decide,
      .cons (hgroup 1 0x7d 1 (by decide) (by decide)) .nil, rfl⟩, by decide, rfl⟩ .nil
  exact funcSection_roundTrip (s := ⟨twoTypes ⟨4, 22⟩, ⟨3, ⟨0, 4⟩, false⟩⟩) (by decide) (by decide)
    (by decide)
    ⟨[3], _, by decide, .cons (htype _ 1 (by decide)) <| .cons (htype _ 1 (by decide)) <|
      .cons (htype _ 0 (by decide)) .nil, rfl⟩
    ⟨[3], _, by decide, Leb128.concat_flatten hcode, rfl⟩ ⟨rfl, rfl, rfl, rfl, trivial⟩ rfl
    (holds_memOf_drop threeFuncBytes 4) rfl

/-! ## Arbitrary bytes

Now the payloads are any, and what is known is that the handler returned `FW_OK`. It has then read
as many entries as the count says, each by its size. -/

/-- From the cursor on there are `n` entries, each with its local declarations inside its size, and
nothing behind them. This is a condition on the bytes of the code section. -/
def CodeFramed (mem : Mem) : ℕ → FwStr → Prop
  | 0, c => c.pos = c.last
  | n + 1, c => ∃ size c₁, Runs (fwStrLebGetu32 mem) c size c₁ ∧
      ∃ cnt c₂, Runs (fwStrLebGetu32 mem) c₁ cnt c₂ ∧
        ∃ groups : List (UInt32 × UInt8), groups.length = cnt.toNat ∧
          ∃ c₃, Reads (fwLocalGroup mem) c₂ groups c₃ ∧ c₃.pos ≤ c₁.pos + size.toNat ∧
            CodeFramed mem n ⟨c₁.pos + size.toNat, c.last⟩

/-- The bodies lie in the code section, which ends at `last` and is consumed. -/
structure BodiesInside (last : ℕ) (funcs : List LoadedFunc) (code' : FwStr) : Prop where
  /-- each of them ends behind its start and in the section -/
  inside : ∀ f ∈ funcs, f.body.pos ≤ f.body.last ∧ f.body.last ≤ last
  /-- no two of them overlap -/
  disjoint : funcs.Pairwise fun f g => f.body.last ≤ g.body.pos ∨ g.body.last ≤ f.body.pos
  /-- the cursor ends at the end of the section -/
  consumed : code'.pos = last

/-- Where the body of an entry starts, and where the cursor is put behind it. -/
theorem codeEntry_bounds {c c' : FwStr} {e : List UInt8 × UInt32 × FwStr}
    (h : Runs (fwCodeEntry mem) c e c') :
    c.pos ≤ e.2.2.pos ∧ c.pos ≤ e.2.2.last ∧ c' = ⟨e.2.2.last, c.last⟩ := by
  obtain ⟨size, c₁, h₁, n, c₂, h₂, groups, hlen, c₃, h₃, -, rfl, rfl⟩ := runs_codeEntry.mp h
  have := (Forward.getu32 h₁).1
  have := (Forward.getu32 h₂).1
  have := (forward_localGroup.collect n.toNat (runs_collect.mpr ⟨hlen, h₃⟩)).1
  exact ⟨by simp only; omega, by simp only; omega, rfl⟩

/-- Entries that were read are framed when their bodies end behind their starts and the last one
ends the section. -/
theorem codeFramed_iff {c c' : FwStr} {entries : List (List UInt8 × UInt32 × FwStr)}
    (h : Reads (fwCodeEntry mem) c entries c') :
    CodeFramed mem entries.length c ↔
      (∀ e ∈ entries, e.2.2.pos ≤ e.2.2.last) ∧ c'.pos = c.last := by
  induction h with
  | nil => simp [CodeFramed]
  | @cons c c₀ c' e entries head tail ih =>
    obtain ⟨-, -, rfl⟩ := codeEntry_bounds head
    obtain ⟨size, c₁, h₁, n, c₂, h₂, groups, hlen, c₃, h₃, -, rfl, -⟩ := runs_codeEntry.mp head
    rw [List.forall_mem_cons, and_assoc, ← ih, List.length_cons, CodeFramed]
    refine ⟨?_, ?_⟩
    · rintro ⟨_, _, h₁', _, _, h₂', groups', hlen', c₃', h₃', hle, hframed⟩
      obtain ⟨rfl, rfl⟩ := h₁.unique h₁'
      obtain ⟨rfl, rfl⟩ := h₂.unique h₂'
      obtain ⟨rfl, rfl⟩ := h₃.unique h₃' (hlen.trans hlen'.symm)
      exact ⟨hle, hframed⟩
    · rintro ⟨hle, hframed⟩
      exact ⟨_, _, h₁, _, _, h₂, groups, hlen, c₃, h₃, hle, hframed⟩

/-- Bodies that end behind their starts lie one behind the other. -/
theorem entries_ordered {c c' : FwStr} {entries : List (List UInt8 × UInt32 × FwStr)}
    (h : Reads (fwCodeEntry mem) c entries c') (hle : ∀ e ∈ entries, e.2.2.pos ≤ e.2.2.last) :
    c.pos ≤ c'.pos ∧ (∀ e ∈ entries, c.pos ≤ e.2.2.pos ∧ e.2.2.last ≤ c'.pos) ∧
      entries.Pairwise fun e e' => e.2.2.last ≤ e'.2.2.pos := by
  induction h with
  | nil => exact ⟨le_rfl, by simp, .nil⟩
  | @cons c c₀ c' e entries head tail ih =>
    obtain ⟨hpos, hlast, rfl⟩ := codeEntry_bounds head
    obtain ⟨hle, hle'⟩ := List.forall_mem_cons.mp hle
    obtain ⟨hmono, hall, hpair⟩ := ih hle'
    simp only at hmono hall
    refine ⟨by omega, List.forall_mem_cons.mpr ⟨⟨hpos, hmono⟩, fun e' he' => ?_⟩,
      .cons (fun e' he' => (hall e' he').1) hpair⟩
    obtain ⟨h₁, h₂⟩ := hall e' he'
    exact ⟨by omega, h₂⟩

theorem bodies_funcsOf {types : List FwModuleType} {idxs : List UInt32}
    {entries : List (List UInt8 × UInt32 × FwStr)} (hlen : idxs.length = entries.length) :
    (funcsOf types idxs entries).map LoadedFunc.body = entries.map fun e => e.2.2 := by
  induction idxs generalizing entries with
  | nil =>
    obtain rfl := List.length_eq_zero_iff.mp hlen.symm
    rfl
  | cons idx idxs ih =>
    cases entries with
    | nil => simp at hlen
    | cons e entries =>
      rw [funcsOf, List.zipWith_cons_cons, List.map_cons, List.map_cons]
      exact congrArg₂ _ rfl (ih (by simpa using hlen))

/-- Functions whose bodies are those of entries lie in the code section when the entries are
framed. -/
theorem bodiesInside_iff {c c' : FwStr} {entries : List (List UInt8 × UInt32 × FwStr)}
    {funcs : List LoadedFunc} (h : Reads (fwCodeEntry mem) c entries c')
    (hbodies : funcs.map LoadedFunc.body = entries.map fun e => e.2.2) :
    BodiesInside c.last funcs c' ↔ CodeFramed mem entries.length c := by
  have hforall (p : FwStr → Prop) : (∀ f ∈ funcs, p f.body) ↔ ∀ e ∈ entries, p e.2.2 := by
    rw [← List.forall_mem_map, hbodies, List.forall_mem_map]
  rw [codeFramed_iff h]
  refine ⟨?_, ?_⟩
  · intro hin
    exact ⟨(hforall fun d => d.pos ≤ d.last).mp fun f hf => (hin.inside f hf).1, hin.consumed⟩
  · rintro ⟨hle, hend⟩
    obtain ⟨-, hall, hpair⟩ := entries_ordered h hle
    refine ⟨(hforall fun d => d.pos ≤ d.last ∧ d.last ≤ c.last).mpr fun e he =>
      ⟨hle e he, ?_⟩, ?_, hend⟩
    · rw [← hend]
      exact (hall e he).2
    · rw [← List.pairwise_map (R := fun d d' : FwStr => d.last ≤ d'.pos ∨ d'.last ≤ d.pos)
        (f := LoadedFunc.body), hbodies, List.pairwise_map]
      exact hpair.imp .inl

/-- A code section that is framed: a count and that many framed entries, up to its end. -/
def CodeSectionFramed (mem : Mem) (code : FwStr) : Prop :=
  ∃ n c, Runs (fwStrLebGetu32 mem) code n c ∧ CodeFramed mem n.toNat c

/-- The count a section begins with, as the handler reads it. -/
def countAt (mem : Mem) (str : FwStr) : UInt32 :=
  match (fwStrLebGetu32 mem str).res with
  | .ok (some n, _) => n
  | _ => 0

/-- The functions a run of the handler has decoded: for a count of 0 it leaves the array alone. -/
def funcsDecoded (mem : Mem) (s s' : LoadState) : List LoadedFunc :=
  if countAt mem s.sec.data = 0 then [] else s'.module.funcs

theorem countAt_of_runs {str d : FwStr} {n : UInt32} (h : Runs (fwStrLebGetu32 mem) str n d) :
    countAt mem str = n := by
  rw [countAt, h]

/-- When the handler returns `FW_OK` (`h`), the bodies lie in the code section and the section is
consumed if and only if its payload is framed. The payloads may be any bytes, and so may be what was
in the module before. -/
theorem bodies_inside_iff {s s' : LoadState} (h : Runs (fwModuleSectionFunc mem) s ⟨⟩ s') :
    BodiesInside s.module.codeRef.last (funcsDecoded mem s s') s'.module.codeRef ↔
      CodeSectionFramed mem s.module.codeRef := by
  obtain ⟨n, d, c, hn, hc, h⟩ := runs_sectionFunc.mp h
  have hframed : CodeSectionFramed mem s.module.codeRef ↔ CodeFramed mem n.toNat c := by
    refine ⟨?_, ?_⟩
    · rintro ⟨n', c', hc', hframed⟩
      obtain ⟨rfl, rfl⟩ := hc.unique hc'
      exact hframed
    · exact fun hframed => ⟨n, c, hc, hframed⟩
  rw [hframed, funcsDecoded, countAt_of_runs hn, ← (Forward.getu32 hc).2]
  rcases h with ⟨h0, types, ht, idxs, d', hd, hidxs, -, entries, c', he, hentries, -, rfl⟩ |
    ⟨h0, -, rfl⟩
  · rw [if_neg h0, ← hentries]
    exact bodiesInside_iff he (bodies_funcsOf (hidxs.trans hentries.symm))
  · obtain rfl := not_not.mp h0
    rw [if_pos rfl]
    exact bodiesInside_iff (.nil c) rfl

/-- Three functions are framed, and their bodies lie inside one behind the other. Each entry
declares a size that covers the groups of locals in it, and ends inside the section. -/
theorem threeFuncs_bodiesInside :
    ∃ s', Runs (fwModuleSectionFunc (memOf threeFuncBytes))
        ⟨twoTypes ⟨4, 22⟩, ⟨3, ⟨0, 4⟩, false⟩⟩ ⟨⟩ s' ∧
      BodiesInside 22 (funcsDecoded (memOf threeFuncBytes)
        ⟨twoTypes ⟨4, 22⟩, ⟨3, ⟨0, 4⟩, false⟩⟩ s') s'.module.codeRef := by
  have hidxs : Reads (fwStrLebGetu32 (memOf threeFuncBytes)) ⟨1, 4⟩ [1, 1, 0] ⟨4, 4⟩ :=
    .cons (rfl : _ = Except.ok (_, (⟨2, 4⟩ : FwStr))) <|
      .cons (rfl : _ = Except.ok (_, (⟨3, 4⟩ : FwStr))) (.cons rfl (.nil _))
  have hentries : Reads (fwCodeEntry (memOf threeFuncBytes)) ⟨5, 22⟩
      [([0x7f, 0x7e, 0x7e], 3, ⟨11, 14⟩), ([], 0, ⟨16, 17⟩), ([0x7d], 1, ⟨21, 22⟩)] ⟨22, 22⟩ :=
    .cons (rfl : _ = Except.ok (_, (⟨14, 22⟩ : FwStr))) <|
      .cons (rfl : _ = Except.ok (_, (⟨17, 22⟩ : FwStr))) (.cons rfl (.nil _))
  have hbelow : ∀ idx ∈ [(1 : UInt32), 1, 0], idx ≤ 2 := by simp
  obtain ⟨s', h⟩ : ∃ s', Runs (fwModuleSectionFunc (memOf threeFuncBytes))
      ⟨twoTypes ⟨4, 22⟩, ⟨3, ⟨0, 4⟩, false⟩⟩ ⟨⟩ s' :=
    ⟨_, runs_sectionFunc.mpr ⟨3, ⟨1, 4⟩, ⟨5, 22⟩, rfl, rfl, .inl ⟨by decide, _, rfl, _, _, hidxs,
      rfl, hbelow, _, _, hentries, rfl, rfl, rfl⟩⟩⟩
  have hthird : CodeFramed (memOf threeFuncBytes) 1 ⟨17, 22⟩ :=
    ⟨4, ⟨18, 22⟩, rfl, 1, ⟨19, 22⟩, rfl, [(1, 0x7d)], rfl, ⟨21, 22⟩, .cons rfl (.nil _), by decide,
      rfl⟩
  have hsecond : CodeFramed (memOf threeFuncBytes) 2 ⟨14, 22⟩ :=
    ⟨2, ⟨15, 22⟩, rfl, 0, ⟨16, 22⟩, rfl, [], rfl, ⟨16, 22⟩, .nil _, by decide, hthird⟩
  have hframed : CodeFramed (memOf threeFuncBytes) 3 ⟨5, 22⟩ :=
    ⟨8, ⟨6, 22⟩, rfl, 2, ⟨7, 22⟩, rfl, [(1, 0x7f), (2, 0x7e)], rfl, ⟨11, 22⟩,
      .cons rfl (.cons rfl (.nil _)), by decide, hsecond⟩
  exact ⟨s', h, (bodies_inside_iff h).mpr ⟨3, ⟨5, 22⟩, rfl, hframed⟩⟩

/-- A module with one type and nothing else yet, its code section at an address. -/
def oneType (codeRef : FwStr) : LoadedModule :=
  { LoadedModule.new [] codeRef with typeCnt := 1, type := some [⟨0, 0, []⟩] }

/-- A size of 0 for an entry that has one byte: the body starts behind its end, and the handler
returns `FW_OK`. -/
theorem sizeZero_outside :
    ¬ ∀ s', Runs (fwModuleSectionFunc (memOf [1, 0, 1, 0, 0])) ⟨oneType ⟨2, 5⟩, ⟨3, ⟨0, 2⟩, false⟩⟩
        ⟨⟩ s' →
      BodiesInside 5 (funcsDecoded (memOf [1, 0, 1, 0, 0]) ⟨oneType ⟨2, 5⟩, ⟨3, ⟨0, 2⟩, false⟩⟩ s')
        s'.module.codeRef := by
  intro h
  obtain ⟨hle, -⟩ := (h _ rfl).inside _ (List.mem_singleton_self _)
  exact absurd hle (by decide)

end FastWasm
